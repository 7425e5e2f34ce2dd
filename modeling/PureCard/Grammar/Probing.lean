/-
PureCard.Grammar.Probing — what `Pda::probe` says about every stack.

A probe replays a byte string over a configuration's own frames and
classifies the verdict, so that the mask cache can settle a token once for
all the stacks a state is met with. `above` places frames beneath the
configuration's own.

A replay that lives makes the same moves above any frames
(`advanceAll_above`). One that dies at a byte reports
`consulted_ambient` when some frames beneath would have let that byte
through, and only then (`probe_dead`). The probe looks at one frame at a
time, which is enough because a move reads no more than the top.
-/
import PureCard.Grammar.PdaTheorems

namespace PureCard

open Pushdown

namespace Pda

/-- The configuration with `below` placed beneath its own frames. -/
def above (p : Pda) (below : List Frame) : Pda := ⟨p.state, p.stack ++ below⟩

@[simp] theorem config_above (p : Pda) (below : List Frame) :
    (p.above below).config = (p.state, p.stack ++ below) := rfl

/-- A live replay makes the same moves above any frames. -/
theorem advanceAll_above {p q : Pda} {bytes : Bytes} (h : p.advanceAll bytes = .ok q)
    (below : List Frame) : (p.above below).advanceAll bytes = .ok (q.above below) := by
  have hrun : run step (p.state, p.stack) bytes = some (q.state, q.stack) := advanceAll_eq_ok.mp h
  exact advanceAll_eq_ok.mpr (step_framed.run_frame below hrun)

theorem advance_dies_iff {p : Pda} {b : UInt8} :
    (∃ dead, p.advance b = .error dead) ↔ Pushdown.advance step p.config b = none := by
  unfold advance
  cases Pushdown.advance step p.config b <;> simp

/-- `livesUnderSomeFrame` looks at every frame. -/
theorem livesUnderSomeFrame_iff {s : State} {b : UInt8} :
    livesUnderSomeFrame s b = true ↔ ∃ f, step s (some f) b ≠ .dead := by
  simp [livesUnderSomeFrame, mem_allFrames]

/-! ## The two verdicts of a probe -/

/-- The replay loop of a probe, with the run it saw: to the end, or up to
the byte it died at. -/
theorem probeLoop_cases (s : State) (st : List Frame) (w : Bytes) :
    (probeLoop s st w = ⟨true, false⟩ ∧ (run step (s, st) w).isSome) ∨
    (∃ u b v s' st', w = u ++ b :: v ∧ run step (s, st) u = some (s', st') ∧
      Pushdown.advance step (s', st') b = none ∧
      probeLoop s st w = ⟨false, st'.isEmpty && livesUnderSomeFrame s' b⟩) := by
  induction w generalizing s st with
  | nil => exact .inl ⟨rfl, rfl⟩
  | cons b rest ih =>
    cases hb : Pushdown.advance step (s, st) b with
    | none =>
      refine .inr ⟨[], b, rest, s, st, rfl, rfl, hb, ?_⟩
      simp only [probeLoop, hb]
    | some c =>
      rcases ih c.1 c.2 with ⟨hp, hr⟩ | ⟨u, b', v, s', st', hw, hr, hd, hp⟩
      · refine .inl ⟨?_, ?_⟩
        · simp only [probeLoop, hb]
          exact hp
        · rw [run_cons, hb]
          exact hr
      · refine .inr ⟨b :: u, b', v, s', st', by rw [hw, List.cons_append], ?_, hd, ?_⟩
        · rw [run_cons, hb]
          exact hr
        · simp only [probeLoop, hb]
          exact hp

theorem alive_eq_admits {p : Pda} {bytes : Bytes} :
    (p.probe bytes).alive = p.admits bytes := by
  rcases probeLoop_cases p.state p.stack bytes with ⟨hp, hr⟩ | ⟨u, b, v, s', st', hw, hr, hd, hp⟩
  · rw [probe, hp, admits]
    exact hr.symm
  · have hnone : run step p.config bytes = none := by
      show run step (p.state, p.stack) bytes = none
      rw [hw, run_append, hr, Option.bind_some, run_cons, hd]
      rfl
    rw [probe, hp, admits, hnone]
    rfl

theorem probe_alive_iff {p : Pda} {bytes : Bytes} :
    (p.probe bytes).alive = true ↔ ∃ q, p.advanceAll bytes = .ok q := by
  rw [alive_eq_admits, admits_iff]

theorem not_consulted_of_alive {p : Pda} {bytes : Bytes} (h : (p.probe bytes).alive = true) :
    (p.probe bytes).consultedAmbient = false := by
  rcases probeLoop_cases p.state p.stack bytes with ⟨hp, _⟩ | ⟨_, _, _, _, _, _, _, _, hp⟩
  · rw [probe, hp]
  · rw [probe, hp] at h
    cases h

/-- A dead probe: the byte it died at, and what frames beneath would have
changed about that. -/
theorem probe_dead {p : Pda} {bytes : Bytes} (h : (p.probe bytes).alive = false) :
    ∃ u b v q, bytes = u ++ b :: v ∧ p.advanceAll u = .ok q ∧
      (∃ dead, q.advance b = .error dead) ∧
      ((p.probe bytes).consultedAmbient = true ↔
        ∃ below r, (p.above below).advanceAll (u ++ [b]) = .ok r) := by
  rcases probeLoop_cases p.state p.stack bytes with ⟨hp, _⟩ | ⟨u, b, v, s', st', hw, hr, hd, hp⟩
  · rw [probe, hp] at h
    cases h
  · refine ⟨u, b, v, ⟨s', st'⟩, hw, advanceAll_eq_ok.mpr hr, advance_dies_iff.mpr hd, ?_⟩
    have hlives := step_framed.lives_beneath_iff hr hd
    have hadmits : ∀ below, (∃ r, (p.above below).advanceAll (u ++ [b]) = .ok r) ↔
        (run step (p.state, p.stack ++ below) (u ++ [b])).isSome := fun below =>
      admits_iff.symm
    rw [probe, hp]
    simp only [hadmits, hlives, Bool.and_eq_true, List.isEmpty_iff, livesUnderSomeFrame_iff]

/-- **The probe is exact.** It is alive when the replay is, and then every
part of the replay goes the same way above any frames, which stay
untouched at the bottom. When it is dead, `consulted_ambient` says whether
some frames beneath let the byte it died at through; if none do, every
replay above other frames dies at that byte. -/
theorem probe_exact (p : Pda) (bytes : Bytes) :
    (p.probe bytes).alive = p.admits bytes ∧
    ((p.probe bytes).alive = true ↔ ∃ q, p.advanceAll bytes = .ok q) ∧
    ((p.probe bytes).alive = true → ∀ u v, bytes = u ++ v →
      ∃ q, p.advanceAll u = .ok q ∧
        ∀ below, (p.above below).advanceAll u = .ok (q.above below)) ∧
    ((p.probe bytes).alive = false → ∃ u b v q, bytes = u ++ b :: v ∧
      p.advanceAll u = .ok q ∧ (∃ dead, q.advance b = .error dead) ∧
      ((p.probe bytes).consultedAmbient = true ↔
        ∃ below r, (p.above below).advanceAll (u ++ [b]) = .ok r) ∧
      ((p.probe bytes).consultedAmbient = false → ∀ below,
        (p.above below).advanceAll u = .ok (q.above below) ∧
          ∃ dead, (q.above below).advance b = .error dead)) := by
  refine ⟨alive_eq_admits, probe_alive_iff, ?_, ?_⟩
  · intro halive u v hsplit
    obtain ⟨r, hr⟩ := probe_alive_iff.mp halive
    rw [hsplit] at hr
    obtain ⟨q, hq, -⟩ := advanceAll_append.mp hr
    exact ⟨q, hq, advanceAll_above hq⟩
  · intro hdead
    obtain ⟨u, b, v, q, hsplit, hq, hdies, hiff⟩ := probe_dead hdead
    refine ⟨u, b, v, q, hsplit, hq, hdies, hiff, ?_⟩
    intro hctx below
    have hlive := advanceAll_above hq below
    refine ⟨hlive, ?_⟩
    cases hstep : (q.above below).advance b with
    | error dead => exact ⟨dead, rfl⟩
    | ok r =>
      -- a byte that lives above `below` would have been reported
      have hlast : (q.above below).advanceAll [b] = .ok r := by
        rw [advanceAll, hstep]
        rfl
      rw [hiff.mpr ⟨below, r, advanceAll_append.mpr ⟨_, hlive, hlast⟩⟩] at hctx
      cases hctx

end Pda

end PureCard
