/-
PureCard.Lib.Potential — how far a pushdown machine is from where it is
going.

A potential is a number for every configuration. If no move lowers it by
more than one, a run of `n` symbols lowers it by at most `n`
(`le_length`); if out of every configuration that is not at zero some move
lowers it, a run of exactly as many symbols brings it to zero
(`descent`). A number with both properties is the length of a shortest
run to its zeros.

The configurations are those of an invariant `I`, so that what a machine
can never be in need not be accounted for.
-/
import PureCard.Lib.Pushdown

namespace PureCard.Pushdown

variable {σ φ β : Type}

/-- `Φ` counts the symbols that a configuration of `I` is away from a zero
of `Φ`. -/
structure Potential (δ : σ → Option φ → β → Move σ φ) (I : σ × List φ → Prop)
    (Φ : σ × List φ → Nat) : Prop where
  kept : ∀ {c d b}, I c → advance δ c b = some d → I d
  slow : ∀ {c d b}, I c → advance δ c b = some d → Φ c ≤ Φ d + 1
  falls : ∀ {c}, I c → Φ c ≠ 0 → ∃ b d, advance δ c b = some d ∧ Φ c = Φ d + 1

namespace Potential

variable {δ : σ → Option φ → β → Move σ φ} {I : σ × List φ → Prop} {Φ : σ × List φ → Nat}
  {c d : σ × List φ} {w : List β}

/-- **No run is faster than the potential.** -/
theorem le_length (h : Potential δ I Φ) (hc : I c) (hrun : run δ c w = some d) :
    Φ c ≤ Φ d + w.length := by
  induction w generalizing c with
  | nil =>
    cases hrun
    exact Nat.le_add_right ..
  | cons b w ih =>
    rw [run_cons] at hrun
    obtain ⟨e, hstep, hrest⟩ := Option.bind_eq_some_iff.mp hrun
    have hone := h.slow hc hstep
    have hmore := ih (h.kept hc hstep) hrest
    rw [List.length_cons]
    omega

/-- **Some run is as fast.** -/
theorem descent (h : Potential δ I Φ) (hc : I c) :
    ∃ w d, run δ c w = some d ∧ I d ∧ Φ d = 0 ∧ w.length = Φ c := by
  induction hn : Φ c generalizing c with
  | zero => exact ⟨[], c, rfl, hc, hn, rfl⟩
  | succ n ih =>
    obtain ⟨b, e, hstep, hfall⟩ := h.falls hc (by omega)
    obtain ⟨w, d, hrun, hd, hzero, hlen⟩ := ih (h.kept hc hstep) (by omega)
    refine ⟨b :: w, d, ?_, hd, hzero, by rw [List.length_cons, hlen]⟩
    rw [run_cons, hstep, Option.bind_some, hrun]

end Potential

end PureCard.Pushdown
