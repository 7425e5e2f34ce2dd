/-
PureCard.Lib.Pushdown — deterministic pushdown machines that read one
input symbol and the top of the stack.

A machine is its transition function `δ : σ → Option φ → β → Move σ φ`.
`advance` takes one move, `run` folds it over a word; both fail exactly
when the machine has no move.

The subject is what a run over a SMALL stack says about the run over a
larger one. `Framed` asks two things of `δ`: it never pops an empty
stack, and a move it makes on an empty stack it makes under every top
frame. Then

* `run_frame`: a run that lives over a stack lives over every larger one
  and leaves the frames beneath untouched;
* `lives_beneath_iff`: the symbol a run died at lives over a larger stack
  when no frame of the run's own was left and some top frame admits it,
  and only then.

The two together say which words can be decided once, over the empty
stack, and which have to be replayed over the real one.

`RunsIn P` is a run that never leaves a set of states once it has begun:
what a lexer sees while one lexeme is open.
-/
import Mathlib.Data.List.Induction
import Mathlib.Tactic.Common

namespace PureCard.Pushdown

/-- One move of the machine: stay in the frame, open a frame, close the
top frame, or stop. -/
inductive Move (σ φ : Type) where
  | next (s : σ)
  | push (f : φ) (s : σ)
  | pop (s : σ)
  | dead
  deriving DecidableEq, Repr

variable {σ φ β : Type}

/-- Carry out a move over a stack (top first). -/
def Move.apply (m : Move σ φ) (st : List φ) : Option (σ × List φ) :=
  match m with
  | .next s => some (s, st)
  | .push f s => some (s, f :: st)
  | .pop s => some (s, st.tail)
  | .dead => none

@[simp] theorem Move.apply_eq_none {m : Move σ φ} {st : List φ} :
    m.apply st = none ↔ m = .dead := by
  cases m <;> simp [Move.apply]

section

variable (δ : σ → Option φ → β → Move σ φ)

/-- Read one symbol. -/
def advance (c : σ × List φ) (b : β) : Option (σ × List φ) :=
  (δ c.1 c.2.head? b).apply c.2

/-- Read a word, symbol by symbol. -/
def run (c : σ × List φ) : List β → Option (σ × List φ)
  | [] => some c
  | b :: w => (advance δ c b).bind fun c' => run c' w

@[simp] theorem run_nil (c : σ × List φ) : run δ c [] = some c := rfl

theorem run_cons (c : σ × List φ) (b : β) (w : List β) :
    run δ c (b :: w) = (advance δ c b).bind fun c' => run δ c' w := rfl

theorem run_append (c : σ × List φ) (u v : List β) :
    run δ c (u ++ v) = (run δ c u).bind fun c' => run δ c' v := by
  induction u generalizing c with
  | nil => rfl
  | cons b u ih =>
    rw [List.cons_append, run_cons, run_cons]
    cases advance δ c b with
    | none => rfl
    | some c' => exact ih c'

theorem run_concat (c : σ × List φ) (u : List β) (b : β) :
    run δ c (u ++ [b]) = (run δ c u).bind fun c' => advance δ c' b := by
  rw [run_append]
  congr 1
  funext c'
  rw [run_cons]
  cases advance δ c' b <;> rfl

/-- A prefix of a live word is live. -/
theorem run_isSome_of_append {c : σ × List φ} {u v : List β}
    (h : (run δ c (u ++ v)).isSome) : (run δ c u).isSome := by
  rw [run_append] at h
  cases hu : run δ c u with
  | none => rw [hu] at h; exact h
  | some _ => rfl

theorem advance_eq_none {c : σ × List φ} {b : β} :
    advance δ c b = none ↔ δ c.1 c.2.head? b = .dead := by
  simp [advance]

/-- What every move keeps, a run keeps: `I` is about a configuration and
what was read to get there. -/
theorem run_invariant {I : σ × List φ → List β → Prop} {c : σ × List φ} (hinit : I c [])
    (hstep : ∀ {d e u b}, run δ c u = some d → I d u → advance δ d b = some e → I e (u ++ [b]))
    {w : List β} {d : σ × List φ} (hrun : run δ c w = some d) : I d w := by
  induction w using List.reverseRecOn generalizing d with
  | nil =>
    cases hrun
    exact hinit
  | append_singleton u b ih =>
    rw [run_concat] at hrun
    obtain ⟨d', hu, hlast⟩ := Option.bind_eq_some_iff.mp hrun
    exact hstep hu (ih hu) hlast

/-- A run that is in a state of `P` after every symbol. -/
inductive RunsIn (P : σ → Prop) : σ × List φ → List β → σ × List φ → Prop where
  | nil (c : σ × List φ) : RunsIn P c [] c
  | cons {c d e : σ × List φ} {b : β} {w : List β} (hstep : advance δ c b = some d) (hd : P d.1)
      (hrest : RunsIn P d w e) : RunsIn P c (b :: w) e

namespace RunsIn

variable {δ} {P : σ → Prop} {c d e : σ × List φ} {u v w : List β}

theorem run_eq (h : RunsIn δ P c u d) : run δ c u = some d := by
  induction h with
  | nil c => rfl
  | cons hstep _ _ ih => rw [run_cons, hstep, Option.bind_some, ih]

theorem append (hu : RunsIn δ P c u d) (hv : RunsIn δ P d v e) : RunsIn δ P c (u ++ v) e := by
  induction hu with
  | nil c => exact hv
  | cons hstep hd _ ih => exact .cons hstep hd (ih hv)

theorem concat (hu : RunsIn δ P c u d) {b : β} (hstep : advance δ d b = some e) (he : P e.1) :
    RunsIn δ P c (u ++ [b]) e :=
  hu.append (.cons hstep he (.nil e))

theorem split (h : RunsIn δ P c (u ++ v) e) :
    ∃ d, RunsIn δ P c u d ∧ RunsIn δ P d v e := by
  induction u generalizing c with
  | nil => exact ⟨c, .nil c, h⟩
  | cons b u ih =>
    cases h with
    | cons hstep hd hrest =>
      obtain ⟨d', hu, hv⟩ := ih hrest
      exact ⟨d', .cons hstep hd hu, hv⟩

theorem last (h : RunsIn δ P c u d) (hu : u ≠ []) : P d.1 := by
  induction h with
  | nil c => exact absurd rfl hu
  | @cons c d e b w _ hd hrest ih =>
    cases w with
    | nil =>
      cases hrest
      exact hd
    | cons a w => exact ih (by simp)

/-- What every move inside `P` keeps, the run keeps; `I` is about a
configuration and what was read to get there. -/
theorem invariant {I : σ × List φ → List β → Prop}
    (hstep : ∀ {d e u b}, P d.1 → I d u → advance δ d b = some e → P e.1 → I e (u ++ [b]))
    (h : RunsIn δ P c v d) {u : List β} (hc : P c.1) (hI : I c u) : I d (u ++ v) := by
  induction h generalizing u with
  | nil c => simpa using hI
  | cons hadv hd _ ih => simpa using ih hd (hstep hc hI hadv hd)

/-- A run whose every prefix ends in `P` is one. -/
theorem of_run (h : ∀ u v, w = u ++ v → u ≠ [] → ∃ d, run δ c u = some d ∧ P d.1) :
    ∃ d, RunsIn δ P c w d := by
  induction w using List.reverseRecOn with
  | nil => exact ⟨c, .nil c⟩
  | append_singleton w b ih =>
    obtain ⟨d, hd⟩ := ih fun u v huv => h u (v ++ [b]) (by rw [huv, List.append_assoc])
    obtain ⟨e, he, hP⟩ := h (w ++ [b]) [] (by simp) (by simp)
    rw [run_concat, hd.run_eq] at he
    exact ⟨e, hd.concat he hP⟩

end RunsIn

/-! ### Machines that follow each other -/

section

variable {σ' φ' : Type} (q : σ → σ') (g : φ → φ')

/-- Rename the states and the frames of a move. -/
def Move.map : Move σ φ → Move σ' φ'
  | .next s => .next (q s)
  | .push f s => .push (g f) (q s)
  | .pop s => .pop (q s)
  | .dead => .dead

/-- A machine that makes every move of another one, states and frames
renamed, follows its runs. -/
theorem run_map {δ : σ → Option φ → β → Move σ φ} {δ' : σ' → Option φ' → β → Move σ' φ'}
    (h : ∀ s top b, δ s top b ≠ .dead → δ' (q s) (top.map g) b = (δ s top b).map q g)
    {c d : σ × List φ} {w : List β} (hrun : run δ c w = some d) :
    run δ' (q c.1, c.2.map g) w = some (q d.1, d.2.map g) := by
  induction w generalizing c with
  | nil =>
    cases hrun
    rfl
  | cons b w ih =>
    rw [run_cons] at hrun ⊢
    obtain ⟨c', hstep, hrest⟩ := Option.bind_eq_some_iff.mp hrun
    have hne : δ c.1 c.2.head? b ≠ .dead := by
      intro hd
      have hnone : advance δ c b = none := (advance_eq_none δ).mpr hd
      rw [hnone] at hstep
      cases hstep
    have hstep' : advance δ' (q c.1, c.2.map g) b = some (q c'.1, c'.2.map g) := by
      rw [advance] at hstep ⊢
      rw [List.head?_map, h _ _ _ hne]
      cases hm : δ c.1 c.2.head? b with
      | dead => exact absurd hm hne
      | _ =>
        rw [hm] at hstep
        cases hstep
        simp [Move.map, Move.apply]
    rw [hstep', Option.bind_some]
    exact ih hrest

end

/-- The transition function of a machine whose runs do not depend on the
frames beneath their own. -/
structure Framed : Prop where
  pop_top : ∀ s b s', δ s none b ≠ .pop s'
  mono : ∀ s b f, δ s none b ≠ .dead → δ s (some f) b = δ s none b

variable {δ}

/-- The same move is made when frames are placed beneath the stack. -/
theorem Framed.move_eq (h : Framed δ) {s : σ} {st : List φ} (base : List φ) {b : β}
    (hne : δ s st.head? b ≠ .dead) : δ s (st ++ base).head? b = δ s st.head? b := by
  cases st with
  | cons f st => rfl
  | nil =>
    cases base with
    | nil => rfl
    | cons f base => exact h.mono s b f hne

theorem Framed.advance_frame (h : Framed δ) {s s' : σ} {st st' : List φ} {b : β}
    (base : List φ) (hstep : advance δ (s, st) b = some (s', st')) :
    advance δ (s, st ++ base) b = some (s', st' ++ base) := by
  have hne : δ s st.head? b ≠ .dead := by
    intro hd
    have hnone : advance δ (s, st) b = none := (advance_eq_none δ).mpr hd
    rw [hnone] at hstep
    cases hstep
  have hmove := h.move_eq base hne
  simp only [advance] at hstep ⊢
  rw [hmove]
  cases hm : δ s st.head? b with
  | next t =>
    rw [hm] at hstep
    simp only [Move.apply, Option.some.injEq, Prod.mk.injEq] at hstep ⊢
    exact ⟨hstep.1, by rw [hstep.2]⟩
  | push f t =>
    rw [hm] at hstep
    simp only [Move.apply, Option.some.injEq, Prod.mk.injEq] at hstep ⊢
    exact ⟨hstep.1, by rw [← hstep.2]; rfl⟩
  | pop t =>
    rw [hm] at hstep
    simp only [Move.apply, Option.some.injEq, Prod.mk.injEq] at hstep ⊢
    cases st with
    | nil => exact absurd hm (h.pop_top s b t)
    | cons f st => exact ⟨hstep.1, by rw [← hstep.2]; rfl⟩
  | dead => exact absurd hm hne

/-- **Frame rule**: a live run stays live over a larger stack, ends in
the same state, and leaves the frames beneath untouched. -/
theorem Framed.run_frame (h : Framed δ) (base : List φ) {w : List β} :
    ∀ {s s' : σ} {st st' : List φ}, run δ (s, st) w = some (s', st') →
      run δ (s, st ++ base) w = some (s', st' ++ base) := by
  induction w with
  | nil =>
    intro s s' st st' hrun
    simp only [run_nil, Option.some.injEq, Prod.mk.injEq] at hrun ⊢
    exact ⟨hrun.1, by rw [hrun.2]⟩
  | cons b w ih =>
    intro s s' st st' hrun
    rw [run_cons] at hrun ⊢
    cases hstep : advance δ (s, st) b with
    | none => rw [hstep] at hrun; cases hrun
    | some c =>
      obtain ⟨t, st₁⟩ := c
      rw [hstep] at hrun
      rw [h.advance_frame base hstep]
      exact ih hrun

/-- The frame rule for a run inside a set of states. -/
theorem RunsIn.frame (h : Framed δ) (base : List φ) {P : σ → Prop} {c d : σ × List φ} {w : List β}
    (hrun : RunsIn δ P c w d) : RunsIn δ P (c.1, c.2 ++ base) w (d.1, d.2 ++ base) := by
  induction hrun with
  | nil c => exact .nil _
  | cons hstep hd _ ih => exact .cons (h.advance_frame base hstep) hd ih

/-- A symbol that dies under a frame of the run's own dies over every
larger stack. -/
theorem advance_none_frame {s : σ} {st base : List φ} {b : β} (hst : st ≠ [])
    (hdead : advance δ (s, st) b = none) : advance δ (s, st ++ base) b = none := by
  rw [advance_eq_none] at hdead ⊢
  cases st with
  | nil => exact absurd rfl hst
  | cons f st => exact hdead

/-- **What frames beneath can change**: the symbol a run died at lives
with some frames placed beneath exactly when the run had no frame of its
own left and some top frame lets the symbol through. -/
theorem Framed.lives_beneath_iff (h : Framed δ) {u : List β} {b : β} {s s' : σ} {st st' : List φ}
    (hlive : run δ (s, st) u = some (s', st')) (hdead : advance δ (s', st') b = none) :
    (∃ base, (run δ (s, st ++ base) (u ++ [b])).isSome) ↔
      st' = [] ∧ ∃ f, δ s' (some f) b ≠ .dead := by
  have hrun : ∀ base, run δ (s, st ++ base) (u ++ [b]) = advance δ (s', st' ++ base) b := by
    intro base
    rw [run_concat, h.run_frame base hlive, Option.bind_some]
  simp only [hrun]
  constructor
  · rintro ⟨base, hbase⟩
    have hempty : st' = [] := by
      by_contra hne
      rw [advance_none_frame hne hdead] at hbase
      cases hbase
    subst hempty
    refine ⟨rfl, ?_⟩
    cases base with
    | nil =>
      rw [List.append_nil, hdead] at hbase
      cases hbase
    | cons f base =>
      refine ⟨f, fun hf => ?_⟩
      have hnone : advance δ (s', f :: base) b = none := (advance_eq_none δ).mpr hf
      rw [List.nil_append, hnone] at hbase
      cases hbase
  · rintro ⟨rfl, f, hf⟩
    refine ⟨[f], ?_⟩
    rw [Option.isSome_iff_ne_none]
    intro hnone
    exact hf ((advance_eq_none δ).mp hnone)

end

end PureCard.Pushdown
