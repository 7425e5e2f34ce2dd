/-
PureCard.Grammar.PdaTheorems — what the transition function reads of the
stack, and what follows for runs.

`step` reads the top frame in four places: a matched closer, the `*` of
a `[*]` multiplicity, the `,` of an argument list and the `;` of a block
query. In each of them an empty stack only makes the byte DEAD, so a
move made over the empty stack is made over every stack
(`step_framed`). That is the hypothesis of the frame rule in
`PureCard.Lib.Pushdown`, and everything about probing a token over an
empty stack comes from there.

`index_injective` is the fact the per-state cache rests on: two states
never share an entry. The last section reads `advanceAll` and `admits`
as runs of the library's machine.
-/
import PureCard.Grammar.Pda

namespace PureCard

open Pushdown

/-! ## The state index -/

theorem State.index_injective {s s' : State} (h : s.index = s'.index) : s = s' := by
  cases s with
  | inStrLit e =>
    cases s' with
    | inStrLit e' => cases e <;> cases e' <;> simp [State.index] at h ⊢
    | _ => cases e <;> simp [State.index] at h
  | _ =>
    cases s' with
    | inStrLit e' => cases e' <;> simp [State.index] at h
    | _ => first | rfl | (simp [State.index] at h)

theorem State.index_lt_count (s : State) : s.index < State.count := by
  cases s with
  | inStrLit escaped => cases escaped <;> decide
  | _ => decide

/-! ## Arms of a `match` -/

/-- What holds of every arm whose guard is met, and of the wildcard,
holds of the arm taken. -/
theorem pick_forall {α : Type} {P : α → Prop} {arms : List (Bool × α)} {wild : α}
    (harms : ∀ arm ∈ arms, arm.1 = true → P arm.2) (hwild : P wild) : P (pick arms wild) := by
  induction arms with
  | nil => exact hwild
  | cons arm arms ih =>
    obtain ⟨guard, a⟩ := arm
    rw [pick]
    split
    · exact harms (guard, a) (by simp) ‹_›
    · exact ih fun arm harm => harms arm (List.mem_cons_of_mem _ harm)

/-! ## The top frame -/

@[simp] theorem close_none (b : UInt8) : close none b = .dead := rfl

/-- A move that depends on the top frame only to be dead without one. -/
structure FramedMove (m : Option Frame → Step) : Prop where
  pop_top : ∀ s, m none ≠ .pop s
  mono : ∀ f, m none ≠ .dead → m (some f) = m none

namespace FramedMove

theorem next (s : State) : FramedMove fun _ => .next s := ⟨by simp, by simp⟩

theorem push (f : Frame) (s : State) : FramedMove fun _ => .push f s := ⟨by simp, by simp⟩

theorem dead : FramedMove fun _ => .dead := ⟨by simp, by simp⟩

theorem close (b : UInt8) : FramedMove fun top => close top b := ⟨by simp, by simp⟩

theorem ite {c : Prop} [Decidable c] {m n : Option Frame → Step} (hm : FramedMove m)
    (hn : FramedMove n) : FramedMove fun top => if c then m top else n top := by
  by_cases hc : c
  · simpa [hc] using hm
  · simpa [hc] using hn

/-- An arm whose guard does not read the stack. -/
theorem arm (guard : Bool) {m : Option Frame → Step}
    {arms : Option Frame → List (Bool × Step)} {wild : Step} (hm : FramedMove m)
    (harms : FramedMove fun top => pick (arms top) wild) :
    FramedMove fun top => pick ((guard, m top) :: arms top) wild := by
  simp only [pick]
  exact .ite hm harms

/-- An arm whose guard needs a frame, and whose byte no later arm takes. -/
theorem frameArm {guard : Option Frame → Bool} {a : Step}
    {arms : Option Frame → List (Bool × Step)} {wild : Step} (hnone : guard none = false)
    (hdead : ∀ f, guard (some f) = true → pick (arms none) wild = .dead)
    (harms : FramedMove fun top => pick (arms top) wild) :
    FramedMove fun top => pick ((guard top, a) :: arms top) wild where
  pop_top s := by simpa [pick, hnone] using harms.pop_top s
  mono f h := by
    simp only [pick, hnone, Bool.false_eq_true, if_false] at h ⊢
    cases hg : guard (some f) with
    | true => exact absurd (hdead f hg) h
    | false => simpa using harms.mono f h

end FramedMove

theorem valuePosition_framed (b : UInt8) (allowClose : Bool) :
    FramedMove fun top => valuePosition top b allowClose := by
  unfold valuePosition
  iterate 14 refine .arm _ (by first | exact .next _ | exact .push _ _) ?_
  refine .frameArm (by simp) ?_ (.arm _ (.close b) .dead)
  intro f h
  have hb : b = Byte.star := by simp at h; exact h.1.1
  subst hb
  cases allowClose <;> rfl

theorem blockStmt_framed (b : UInt8) (allowClose : Bool) :
    FramedMove fun top => blockStmt top b allowClose := by
  unfold blockStmt
  iterate 4 refine .arm _ (.next _) ?_
  exact .arm _ (.close b) .dead

theorem afterValue_framed (b : UInt8) : FramedMove fun top => afterValue top b := by
  unfold afterValue
  iterate 13 refine .arm _ (by first | exact .next _ | exact .push _ _) ?_
  refine .frameArm (by simp) ?_ (.frameArm (by simp) ?_ (.arm _ (.close b) .dead))
  · intro f h
    have hb : b = Byte.comma := by simpa using h
    subst hb
    rfl
  · intro f h
    have hb : b = Byte.semi := by simp at h; exact h.1
    subst hb
    rfl

theorem orExpectValueReq_framed (second b : UInt8) (s : State) :
    FramedMove fun top => orExpectValueReq second s top b :=
  .ite (.next s) (valuePosition_framed b false)

/-- **`step` is framed**: a move made over the empty stack is made under
every top frame, and never pops. -/
theorem step_framedMove (s : State) (b : UInt8) : FramedMove fun top => step s top b := by
  cases s with
  | blockStmt => exact blockStmt_framed b false
  | blockStmtClose => exact blockStmt_framed b true
  | expectValue => exact valuePosition_framed b true
  | expectValueReq => exact valuePosition_framed b false
  | afterValue => exact afterValue_framed b
  | inIdent => exact .ite (.next _) (afterValue_framed b)
  | inMultiplicity => exact .ite (.close b) .dead
  | inNumberInt => exact .ite (.next _) (.ite (.next _) (afterValue_framed b))
  | inNumberFrac => exact .ite (.next _) (.ite (.next _) (afterValue_framed b))
  | inExp => exact .ite (.next _) (afterValue_framed b)
  | inDateLit => exact .ite (.next _) (afterValue_framed b)
  | inMilestoneLit => exact .ite (.next _) (afterValue_framed b)
  | inStrLit escaped =>
    cases escaped with
    | true => exact .ite (.next _) (afterValue_framed b)
    | false => exact .ite (.next _) (.next _)
  | sawDash => exact orExpectValueReq_framed _ b _
  | sawPipe => exact orExpectValueReq_framed _ b _
  | sawGt => exact orExpectValueReq_framed _ b _
  | sawLt => exact orExpectValueReq_framed _ b _
  | _ =>
    -- the remaining states do not read the stack
    constructor
    · intro s' h
      simp only [step, demand, inSourceIdent] at h
      repeat' split at h
      all_goals cases h
    · intro f _
      rfl

theorem step_framed : Framed step where
  pop_top s b := (step_framedMove s b).pop_top
  mono s b f := (step_framedMove s b).mono f

/-! ## Feeding bytes -/

namespace Pda

/-- `advance` is the library's machine at `step`. -/
theorem advance_eq_ok {p p' : Pda} {b : UInt8} :
    p.advance b = .ok p' ↔ Pushdown.advance step p.config b = some p'.config := by
  unfold advance
  cases h : Pushdown.advance step p.config b with
  | none => simp
  | some c =>
    simp only [Except.ok.injEq, Option.some.injEq]
    constructor
    · rintro rfl
      rfl
    · rintro rfl
      rfl

/-- Feeding a byte string is running the machine. -/
theorem advanceAll_eq_ok {p p' : Pda} {bytes : Bytes} :
    p.advanceAll bytes = .ok p' ↔ run step p.config bytes = some p'.config := by
  induction bytes generalizing p with
  | nil =>
    simp only [advanceAll, run_nil, Except.ok.injEq, Option.some.injEq]
    constructor
    · rintro rfl
      rfl
    · intro h
      exact congrArg ofConfig h
  | cons b rest ih =>
    rw [advanceAll, run_cons]
    cases h : p.advance b with
    | ok q => rw [advance_eq_ok.mp h, Option.bind_some, ← ih]
    | error dead =>
      have hnone : Pushdown.advance step p.config b = none := by
        cases hc : Pushdown.advance step p.config b with
        | none => rfl
        | some c =>
          have hok : p.advance b = .ok (ofConfig c) := advance_eq_ok.mpr hc
          rw [h] at hok
          cases hok
      rw [hnone]
      simp

/-- `admits` is: feeding the bytes never fails. -/
theorem admits_iff {p : Pda} {bytes : Bytes} :
    p.admits bytes = true ↔ ∃ p', p.advanceAll bytes = .ok p' := by
  rw [admits, Option.isSome_iff_exists]
  constructor
  · rintro ⟨c, hc⟩
    exact ⟨ofConfig c, advanceAll_eq_ok.mpr hc⟩
  · rintro ⟨p', hp⟩
    exact ⟨p'.config, advanceAll_eq_ok.mp hp⟩

theorem advanceAll_append {p p' : Pda} {u v : Bytes} :
    p.advanceAll (u ++ v) = .ok p' ↔ ∃ q, p.advanceAll u = .ok q ∧ q.advanceAll v = .ok p' := by
  simp only [advanceAll_eq_ok, run_append, Option.bind_eq_some_iff]
  constructor
  · rintro ⟨c, hu, hv⟩
    exact ⟨ofConfig c, hu, hv⟩
  · rintro ⟨q, hu, hv⟩
    exact ⟨q.config, hu, hv⟩

end Pda

end PureCard
