/-
PureCard.Calls — the calls on a session, with what each one writes.

The decode calls take the session by mutable reference. Here a call
returns the session as it leaves it next to its result, also when it
fails, and the writes stand in the order of the source. `accept_byte`
writes its automaton byte by byte, so folding it over a token that dies
leaves a session that has moved; `accept_token` folds over a clone.

`acceptToken_folds` is the contract of `accept_token`: the same verdict as
that fold, the same automaton and offset when it succeeds, and no change
at all when it does not.
-/
import PureCard.Session

namespace PureCard

open Pushdown

/-! ## The automaton -/

namespace Pda

/-- `Pda::advance`: the automaton after the call, and the result. -/
def feed (p : Pda) (b : UInt8) : Pda × Except DeadState Unit :=
  match step p.state p.stackTop b with
  | .next s => ({ p with state := s }, .ok ())
  | .push f s => (⟨s, f :: p.stack⟩, .ok ())
  | .pop s => (⟨s, p.stack.tail⟩, .ok ())
  | .dead => (p, .error ⟨p.state.name, (p.stackTop.map Frame.name).getD "none"⟩)

/-- The loop of `accept_token` over its clone; `false` when it returned
early. -/
def feedAll (probe : Pda) : Bytes → Pda × Bool
  | [] => (probe, true)
  | b :: rest =>
    match probe.feed b with
    | (probe, .ok ()) => probe.feedAll rest
    | (probe, .error _) => (probe, false)

theorem feed_eq (p : Pda) (b : UInt8) : p.feed b =
    match p.advance b with
    | .ok p' => (p', .ok ())
    | .error dead => (p, .error dead) := by
  unfold feed advance Pushdown.advance
  cases hstep : step p.state p.stackTop b with
  | dead =>
    have hmove : step p.config.1 p.config.2.head? b = .dead := hstep
    rw [hmove]
    rfl
  | next s =>
    have hmove : step p.config.1 p.config.2.head? b = .next s := hstep
    rw [hmove]
    rfl
  | push f s =>
    have hmove : step p.config.1 p.config.2.head? b = .push f s := hstep
    rw [hmove]
    rfl
  | pop s =>
    have hmove : step p.config.1 p.config.2.head? b = .pop s := hstep
    rw [hmove]
    rfl

theorem feedAll_ok {p p' : Pda} {bytes : Bytes} :
    p.feedAll bytes = (p', true) ↔ p.advanceAll bytes = .ok p' := by
  induction bytes generalizing p with
  | nil => simp [feedAll, advanceAll]
  | cons b rest ih =>
    rw [feedAll, feed_eq, advanceAll]
    cases p.advance b with
    | ok q => exact ih
    | error dead => simp

end Pda

namespace Session

/-! ## The decode calls -/

/-- `accept_byte`. -/
def callAcceptByte (s : Session) (byte : UInt8) : Session × Except DecodeError Unit :=
  match s.pda.feed byte with
  | (pda, .ok ()) =>
    let s := { s with pda := pda }
    ({ s with offset := s.offset + 1 }, .ok ())
  | (pda, .error dead) => ({ s with pda := pda }, .error (.deadState s.offset byte dead))

/-- `accept_byte` over a byte string, stopping at the first error. -/
def callAcceptBytes (s : Session) : Bytes → Session × Except DecodeError Unit
  | [] => (s, .ok ())
  | b :: rest =>
    match s.callAcceptByte b with
    | (s, .ok ()) => s.callAcceptBytes rest
    | (s, .error e) => (s, .error e)

/-- The tracker sees the token, if there is a schema. -/
def observed (s : Session) (bytes : Bytes) : Session :=
  match s.schema with
  | some schema => { s with tracker := s.tracker.observe bytes s.pda schema }
  | none => s

/-- `accept_token`. -/
def callAcceptToken (s : Session) (id : Nat) : Session × Except DecodeError Unit :=
  if id = s.grammar.eosBit then
    if s.pda.isAccepting then (s, .ok ()) else (s, .error .unexpectedEos)
  else
    match s.grammar.vocab.bytes id with
    | none => (s, .error (.unknownToken id))
    | some bytes =>
      let probe := s.pda
      match probe.feedAll bytes with
      | (_, false) => (s, .error (.inadmissibleToken id))
      | (probe, true) =>
        let s := s.observed bytes
        let s := { s with pda := probe }
        ({ s with offset := s.offset + bytes.length }, .ok ())

/-! ## What they come to -/

theorem observed_eq (s : Session) (bytes : Bytes) (pda : Pda) :
    { s.observed bytes with
      pda := pda
      offset := (s.observed bytes).offset + bytes.length } = s.commit bytes pda := by
  unfold observed commit
  cases s with
  | mk _ _ _ _ _ schema _ _ _ _ => cases schema <;> rfl

theorem callAcceptByte_eq (s : Session) (b : UInt8) : s.callAcceptByte b =
    match s.acceptByte b with
    | .ok s' => (s', .ok ())
    | .error e => (s, .error e) := by
  unfold callAcceptByte acceptByte
  rw [Pda.feed_eq]
  cases s.pda.advance b <;> rfl

/-- A refused token leaves the session as it was. -/
theorem callAcceptToken_eq (s : Session) (id : Nat) : s.callAcceptToken id =
    match s.acceptToken id with
    | .ok s' => (s', .ok ())
    | .error e => (s, .error e) := by
  unfold callAcceptToken acceptToken
  by_cases heos : id = s.grammar.eosBit
  · rw [if_pos heos, if_pos heos]
    cases s.pda.isAccepting <;> rfl
  · rw [if_neg heos, if_neg heos]
    cases s.grammar.vocab.bytes id with
    | none => rfl
    | some bytes =>
      dsimp only
      cases hadv : s.pda.advanceAll bytes with
      | ok p =>
        rw [Pda.feedAll_ok.mpr hadv]
        dsimp only
        rw [← s.observed_eq bytes p]
      | error dead =>
        cases hfeed : s.pda.feedAll bytes with
        | mk p alive =>
          cases alive with
          | false => rfl
          | true =>
            rw [Pda.feedAll_ok] at hfeed
            rw [hadv] at hfeed
            cases hfeed

/-- Folding `accept_byte` over bytes that live. -/
theorem callAcceptBytes_ok {s : Session} {bytes : Bytes} {p : Pda}
    (h : s.pda.advanceAll bytes = .ok p) :
    s.callAcceptBytes bytes = ({ s with pda := p, offset := s.offset + bytes.length }, .ok ()) := by
  induction bytes generalizing s with
  | nil =>
    cases h
    rfl
  | cons b rest ih =>
    rw [Pda.advanceAll] at h
    rw [callAcceptBytes, callAcceptByte_eq, acceptByte]
    cases hadv : s.pda.advance b with
    | error dead =>
      rw [hadv] at h
      cases h
    | ok q =>
      rw [hadv] at h
      dsimp only
      have hrest : Pda.advanceAll ({ s with pda := q, offset := s.offset + 1 } : Session).pda rest =
          .ok p := h
      rw [ih hrest]
      have hlen : s.offset + 1 + rest.length = s.offset + (b :: rest).length := by
        rw [List.length_cons]
        omega
      rw [hlen]

/-- Folding `accept_byte` over bytes that die. -/
theorem callAcceptBytes_error {s : Session} {bytes : Bytes} {dead : DeadState}
    (h : s.pda.advanceAll bytes = .error dead) : (s.callAcceptBytes bytes).2 ≠ .ok () := by
  induction bytes generalizing s with
  | nil => cases h
  | cons b rest ih =>
    rw [Pda.advanceAll] at h
    rw [callAcceptBytes, callAcceptByte_eq, acceptByte]
    cases hadv : s.pda.advance b with
    | error dead =>
      intro hok
      cases hok
    | ok q =>
      rw [hadv] at h
      have hrest : Pda.advanceAll ({ s with pda := q, offset := s.offset + 1 } : Session).pda rest =
          .error dead := h
      exact ih hrest

/-- **`accept_token` is an atomic fold of `accept_byte`.** On a token of
the table it succeeds exactly when the fold over its bytes does, and then
leaves the automaton, its whole stack and the offset the fold leaves;
when a byte dies it reports the token and changes nothing. On the EOS id
it never changes anything, and on any other id it reports an unknown
token and changes nothing. -/
theorem acceptToken_folds (s : Session) (id : Nat) :
    (id ≠ s.grammar.eosBit → ∀ bytes, s.grammar.vocab.bytes id = some bytes →
      ((s.callAcceptToken id).2 = .ok () ↔ (s.callAcceptBytes bytes).2 = .ok ()) ∧
      ((s.callAcceptToken id).2 = .ok () →
        (s.callAcceptToken id).1.pda = (s.callAcceptBytes bytes).1.pda ∧
        (s.callAcceptToken id).1.offset = (s.callAcceptBytes bytes).1.offset) ∧
      ((s.callAcceptBytes bytes).2 ≠ .ok () →
        s.callAcceptToken id = (s, .error (.inadmissibleToken id)))) ∧
    (id = s.grammar.eosBit →
      s.callAcceptToken id = (s, if s.isComplete then .ok () else .error .unexpectedEos)) ∧
    (id ≠ s.grammar.eosBit → s.grammar.vocab.bytes id = none →
      s.callAcceptToken id = (s, .error (.unknownToken id))) := by
  refine ⟨?_, ?_, ?_⟩
  · intro heos bytes hbytes
    rw [callAcceptToken_eq, acceptToken, if_neg heos, hbytes]
    dsimp only
    cases hadv : s.pda.advanceAll bytes with
    | ok p =>
      rw [callAcceptBytes_ok hadv]
      exact ⟨by simp, fun _ => ⟨rfl, rfl⟩, fun h => absurd rfl h⟩
    | error dead =>
      have hdead := callAcceptBytes_error hadv
      have hrefused : (Except.error (.inadmissibleToken id) : Except DecodeError Unit) ≠ .ok () := by
        simp
      exact ⟨iff_of_false hrefused hdead, fun h => absurd h hrefused, fun _ => rfl⟩
  · intro heos
    rw [callAcceptToken, if_pos heos, isComplete]
    split <;> rfl
  · intro heos hbytes
    rw [callAcceptToken, if_neg heos, hbytes]

/-- `xs` opens a list and dies on its last byte: folding byte by byte has
moved when it fails, the token call has not. -/
example :
    let s := { build (CompiledGrammar.compile ⟨[ascii "(])"], 1⟩) none with pda := ⟨.afterValue, []⟩ }
    (s.callAcceptToken 0).1.pda = ⟨.afterValue, []⟩ ∧
      (s.callAcceptBytes (ascii "(])")).1.pda = ⟨.expectValue, [.paren]⟩ := by
  decide

end Session

end PureCard
