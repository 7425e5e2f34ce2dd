/-
PureCard.SyntacticMask — the L1 mask against the brute-force oracle.

The syntactic mask is put together from a cache computed over the EMPTY
stack and a re-probe of a few tokens over the real one. Here it is
compared with the definition a reader would write down: a token is allowed
when feeding its bytes to a copy of the automaton never fails, EOS when
the automaton accepts.

`test_syntacticMask` is that comparison for the bits; the schema half of
`allowed_mask` starts from it. `allows_iff_of_schema_none` is the L1
session's mask.
-/
import PureCard.Session

namespace PureCard

open Pushdown

/-! ## The mask -/

namespace Session

theorem test_probeDeferred (pda : Pda) (vocab : Vocab) (deferred : List Nat) (mask : BitMask)
    (id : Nat) : (probeDeferred pda vocab deferred mask).test id =
      (mask.test id || (decide (id < mask.len) && decide (id ∈ deferred) &&
        pda.admits (vocab.bytesOrEmpty id))) :=
  BitMask.test_foldl_set (fun id => pda.admits (vocab.bytesOrEmpty id)) deferred mask id

/-- The mask before the EOS bit is settled: whatever the state of the
cache, its token bits are those of the replay over the live stack. -/
theorem test_probed {s : Session} {id : Nat} (hid : id < s.grammar.vocab.eosBit) :
    ((if s.pda.stackTop.isSome then
        probeDeferred s.pda s.grammar.vocab (s.grammar.cached s.pda.state).2.deferred
          (s.mask.copyFrom (s.grammar.cached s.pda.state).2.indep)
      else s.mask.copyFrom (s.grammar.cached s.pda.state).2.indep).test id = true) ↔
      s.pda.admits (s.grammar.vocab.bytesOrEmpty id) = true := by
  have hlen : s.grammar.vocab.eosBit < s.grammar.vocab.maskLen := Nat.lt_succ_self _
  rw [CompiledGrammar.cached_snd, BitMask.copyFrom_eq (by rw [len_build, s.mask_len])]
  have hsplit := admits_iff_survives_or s.pda.state s.pda.stack (s.grammar.vocab.bytesOrEmpty id)
  cases hst : s.pda.stack with
  | nil =>
    -- over the empty stack every deferred token is dead
    have htop : s.pda.stackTop.isSome = false := by simp [Pda.stackTop, hst]
    have hpinned : Pda.pinned s.pda.state = s.pda := by
      rw [Pda.pinned, ← hst]
    rw [htop, if_neg (by simp), test_build _ _ hlen]
    simp only [hid, decide_true, Bool.true_and]
    rw [hsplit]
    constructor
    · exact .inl
    · rintro (h | ⟨hctx, h⟩)
      · exact h
      · have hdead := not_admits_of_consultedAmbient hctx
        rw [hpinned] at hdead
        have hlive : s.pda.admits (s.grammar.vocab.bytesOrEmpty id) = true := h
        rw [hdead] at hlive
        cases hlive
  | cons f stack =>
    have htop : s.pda.stackTop.isSome = true := by simp [Pda.stackTop, hst]
    rw [htop, if_pos rfl, test_probeDeferred, test_build _ _ hlen, len_build]
    have hidlen : id < s.grammar.vocab.maskLen := Nat.lt_trans hid hlen
    simp only [hid, hidlen, decide_true, Bool.true_and, Bool.or_eq_true, Bool.and_eq_true,
      decide_eq_true_eq, mem_deferred_build, true_and]
    exact hsplit.symm

/-- **The bits of the syntactic mask.** -/
theorem test_syntacticMask (s : Session) (id : Nat) :
    s.syntacticMask.test id = true ↔
      (id < s.grammar.eosBit ∧ s.pda.admits (s.grammar.vocab.bytesOrEmpty id) = true) ∨
      (id = s.grammar.eosBit ∧ s.pda.isAccepting = true) := by
  rcases Nat.lt_trichotomy id s.grammar.eosBit with hid | rfl | hid
  · have hne : id ≠ s.grammar.eosBit := Nat.ne_of_lt hid
    have hprobed := test_probed (s := s) hid
    have hidlen : id < s.grammar.vocab.maskLen := Nat.lt_succ_of_lt hid
    simp only [hid, hne, true_and, false_and, or_false]
    rw [← hprobed]
    unfold syntacticMask
    cases s.pda.isAccepting with
    | true =>
      simp only [if_true, BitMask.test_set, hne, decide_false, Bool.false_or, Bool.and_eq_true,
        decide_eq_true_eq]
      constructor
      · exact fun h => h.2
      · intro h
        refine ⟨?_, h⟩
        rw [apply_ite BitMask.len, len_probeDeferred, ite_self, BitMask.len_copyFrom, s.mask_len]
        exact hidlen
    | false => simp [hne]
  · unfold syntacticMask
    simp only [lt_irrefl, false_and, true_and, false_or]
    cases s.pda.isAccepting with
    | true =>
      simp only [if_true, BitMask.test_set, decide_true, Bool.true_or, Bool.and_true,
        decide_eq_true_eq, iff_true]
      rw [apply_ite BitMask.len, len_probeDeferred, ite_self, BitMask.len_copyFrom, s.mask_len]
      exact Nat.lt_succ_self _
    | false => simp
  · have hlen : s.syntacticMask.len ≤ id := by
      rw [len_syntacticMask]
      exact hid
    rw [BitMask.test_of_len_le hlen]
    simp only [Bool.false_eq_true, false_iff, not_or]
    omega

/-- **The L1 mask is the brute-force oracle.** Whatever the per-state
cache holds already, and whatever the automaton and its stack are: a token
bit is set when feeding the token's bytes to a copy of the automaton never
fails, the EOS bit when the automaton accepts, and no other bit. -/
theorem allows_iff_of_schema_none (s : Session) (hL1 : s.schema = none) (id : Nat) :
    s.allows id = true ↔
      (∃ bytes p', id < s.grammar.eosBit ∧ s.grammar.vocab.bytes id = some bytes ∧
        s.pda.advanceAll bytes = .ok p') ∨
      (id = s.grammar.eosBit ∧ s.isComplete = true) := by
  have hmask : s.allows id = s.syntacticMask.test id := by
    simp only [allows, allowedMask, refill, hL1]
  rw [hmask, test_syntacticMask, Pda.admits_iff]
  refine or_congr ?_ Iff.rfl
  constructor
  · rintro ⟨hid, p', hp⟩
    exact ⟨_, p', hid, Vocab.bytes_of_lt hid, hp⟩
  · rintro ⟨bytes, p', hid, hb, hp⟩
    refine ⟨hid, p', ?_⟩
    rw [Vocab.bytesOrEmpty, hb]
    exact hp

/-- A closer over an open bracket, after the cache of the state was filled
by another session: the mask is the replay over the live stack, which
takes `]` and not `)`. -/
theorem allows_iff_of_schema_none_deferred_closer :
    let g := (CompiledGrammar.compile ⟨[ascii ")", ascii "]", ascii "x"], 3⟩).fill .expectValue
    let s := { build g none with pda := ⟨.expectValue, [.bracket]⟩ }
    s.schema = none ∧ (s.allows 1 = true ↔
      (∃ bytes p', 1 < s.grammar.eosBit ∧ s.grammar.vocab.bytes 1 = some bytes ∧
        s.pda.advanceAll bytes = .ok p') ∨
      (1 = s.grammar.eosBit ∧ s.isComplete = true)) ∧
      s.allows 1 = true ∧ s.allows 0 = false :=
  ⟨rfl, allows_iff_of_schema_none _ rfl 1, by decide +kernel, by decide +kernel⟩

end Session

end PureCard
