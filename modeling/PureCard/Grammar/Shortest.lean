/-
PureCard.Grammar.Shortest — how far a stream is from a complete query.

A complete query needs every open delimiter closed, one byte each, and a
finished value inside the innermost one. `State.remaining` is what the
innermost value still needs; where a delimiter may be closed at once, as
behind the `(` of an argument list, that is nothing.

`shortest_completion` says that the sum is exact: every live stream is
completed by some continuation of that length and by none that is
shorter. The two halves are the two properties of a potential
(`PureCard.Lib.Potential`), each checked on the table of the automaton's
moves.
-/
import PureCard.Lib.Potential
import PureCard.Grammar.Delimiters

namespace PureCard

open Pushdown

/-- `w` is a query of the grammar: the automaton reads it and accepts. -/
def IsQuery (w : Bytes) : Prop := ∃ p, Pda.new.advanceAll w = .ok p ∧ p.isAccepting = true

/-- The bytes a shortest way out of a state reads before the innermost open
delimiter can be closed. -/
def State.remaining (top : Option Frame) : State → Nat
  | .afterValue | .inIdent | .inNumberInt | .inNumberFrac | .inExp | .inStrLit true | .inDateLit
  | .inMilestoneLit | .inMultiplicity => 0
  | .expectValue => if top.isSome then 0 else 1
  | .blockStmtClose =>
    match top with
    | some .brace | some .braceLambda => 0
    | _ => 2
  | .blockStmt | .inSourceIdent | .letL | .letLe | .letLet | .sourceDash | .sawEq | .sawBang
  | .sawAmp => 2
  | .sourceColon2 | .afterBraceOpen | .expectSource => 3
  | .sourceColon | .start | .inBinder | .afterBinder => 4
  | .expectBinder => 5
  | _ => 1

@[simp] theorem State.remaining_afterValue (top : Option Frame) :
    State.afterValue.remaining top = 0 := rfl

/-- A byte of a shortest way out. -/
def State.shortcut : State → UInt8
  | .start | .afterBraceOpen => Byte.pipe
  | .blockStmt | .blockStmtClose => Byte.dollar
  | .inSourceIdent | .letL | .letLe | .letLet => Byte.dot
  | .sourceColon => Byte.colon
  | .sourceDash => Byte.gt
  | .inBinder | .afterBinder | .sawEq | .sawBang => Byte.eq
  | .sawAmp => Byte.amp
  | .sawNumSign | .needFracDigit | .sawExp | .needExpDigit => 48
  | .sawPercent => Byte.dash
  | .inStrLit _ => Byte.quote
  | _ => Byte.l

namespace Pda

/-- How many bytes a shortest completion has. -/
def remaining (p : Pda) : Nat := p.stack.length + p.state.remaining p.stackTop

end Pda

/-! ## One move -/

/-- What the table has to say of a move that closes nothing. -/
def slowRow (s : State) (_ : ByteClass) : Step → Bool
  | .next s' => allTops.all fun top => decide (s.remaining top ≤ s'.remaining top + 1)
  | .push f s' => allTops.all fun top => decide (s.remaining top ≤ s'.remaining (some f) + 2)
  | .pop s' => s' == .afterValue
  | .dead => true

theorem checkMoves_slowRow : checkMoves slowRow = true := by decide +kernel

/-- A frame is closed only where nothing remains, and there always; `[*`
closes a bracket alone. -/
def closesRow (s : State) (f : Frame) : Bool :=
  match step s (some f) (closer f) with
  | .pop s' => s' == .afterValue && s.remaining (some f) == 0
  | _ => s.remaining (some f) != 0 || (s == .inMultiplicity && f != .bracket)

theorem closesRow_all (s : State) (f : Frame) : closesRow s f = true := by
  have hall : (allStates.all fun s => allFrames.all (closesRow s)) = true := by decide +kernel
  exact List.all_eq_true.mp (List.all_eq_true.mp hall s (mem_allStates s)) f (mem_allFrames f)

/-- Where something remains, the shortcut leaves one byte less. -/
def fallsRow (s : State) (top : Option Frame) : Bool :=
  s.remaining top == 0 || allStates.any fun s' =>
    decide (step s top s.shortcut = .next s') && s.remaining top == s'.remaining top + 1

theorem fallsRow_all (s : State) (top : Option Frame) : fallsRow s top = true := by
  have hall : (allStates.all fun s => allTops.all (fallsRow s)) = true := by decide +kernel
  exact List.all_eq_true.mp (List.all_eq_true.mp hall s (mem_allStates s)) top (mem_allTops top)

/-- Over the empty stack nothing remains exactly where the automaton
accepts. -/
theorem accepting_iff_row (s : State) : s = .inMultiplicity ∨
    ((⟨s, []⟩ : Pda).isAccepting = true ↔ s.remaining none = 0) := by
  have hall : (allStates.all fun s => decide (s = .inMultiplicity) ||
      decide ((⟨s, []⟩ : Pda).isAccepting = true ↔ s.remaining none = 0)) = true := by
    decide +kernel
  have hrow := List.all_eq_true.mp hall s (mem_allStates s)
  rwa [Bool.or_eq_true, decide_eq_true_eq, decide_eq_true_eq] at hrow

/-- What a configuration of a stream is never: the star of a multiplicity
anywhere but directly in a bracket. -/
def StarInBracket (c : State × List Frame) : Prop :=
  c.1 = .inMultiplicity → c.2.head? = some .bracket

theorem potential_remaining :
    Potential step StarInBracket fun c => (Pda.ofConfig c).remaining where
  kept := by
    rintro c ⟨s', st'⟩ b _ hstep rfl
    exact bracket_of_inMultiplicity hstep
  slow := by
    rintro ⟨s, st⟩ d b _ hstep
    obtain ⟨k, m, _, hrow, hm, happly⟩ := advance_checkMoves checkMoves_slowRow hstep
    simp only [Pda.remaining, Pda.ofConfig, Pda.stackTop]
    cases m with
    | next s' =>
      cases happly
      have hle := List.all_eq_true.mp hrow st.head? (mem_allTops _)
      rw [decide_eq_true_eq] at hle
      dsimp only
      omega
    | push f s' =>
      cases happly
      have hle := List.all_eq_true.mp hrow st.head? (mem_allTops _)
      rw [decide_eq_true_eq] at hle
      simp only [List.length_cons, List.head?_cons]
      omega
    | pop s' =>
      cases happly
      obtain ⟨f, hf, rfl⟩ := closes_top hm
      obtain ⟨st, rfl⟩ := List.head?_eq_some_iff.mp hf
      have hclose := closesRow_all s f
      rw [List.head?_cons] at hm
      simp only [closesRow, hm, Bool.and_eq_true, beq_iff_eq] at hclose
      simp only [List.head?_cons, hclose.2, List.length_cons, List.tail_cons]
      omega
    | dead => cases happly
  falls := by
    rintro ⟨s, st⟩ hstar hne
    by_cases hzero : s.remaining st.head? = 0
    · cases st with
      | nil =>
        rw [List.head?_nil] at hzero
        exact absurd (by simp [Pda.remaining, Pda.ofConfig, Pda.stackTop, hzero]) hne
      | cons f st =>
        refine ⟨closer f, (.afterValue, st), ?_, ?_⟩
        · have hclose := closesRow_all s f
          rw [List.head?_cons] at hzero
          unfold closesRow at hclose
          split at hclose
          · rename_i s' hstep
            rw [Bool.and_eq_true, beq_iff_eq] at hclose
            rw [Pushdown.advance, List.head?_cons, hstep, hclose.1]
            rfl
          · have hmult : s = .inMultiplicity ∧ f ≠ .bracket := by simpa [hzero] using hclose
            exact absurd (Option.some.inj (hstar hmult.1)) hmult.2
        · rw [List.head?_cons] at hzero
          simp [Pda.remaining, Pda.ofConfig, Pda.stackTop, hzero]
    · have hfall := fallsRow_all s st.head?
      simp only [fallsRow, Bool.or_eq_true, beq_iff_eq, hzero, false_or, List.any_eq_true,
        Bool.and_eq_true, decide_eq_true_eq] at hfall
      obtain ⟨s', -, hstep, hless⟩ := hfall
      refine ⟨s.shortcut, (s', st), ?_, ?_⟩
      · rw [Pushdown.advance, hstep]
        rfl
      · simp only [Pda.remaining, Pda.ofConfig, Pda.stackTop, hless]
        omega

/-! ## A whole stream -/

theorem starInBracket_of_run {w : Bytes} {p : Pda} (h : Pda.new.advanceAll w = .ok p) :
    StarInBracket p.config := by
  intro hs
  have hrun := Pda.advanceAll_eq_ok.mp h
  have hconfig : p.config = (.inMultiplicity, p.stack) := Prod.ext hs rfl
  rw [hconfig] at hrun
  exact bracket_of_run hrun

theorem remaining_eq_zero_iff {p : Pda} (h : StarInBracket p.config) :
    p.remaining = 0 ↔ p.isAccepting = true := by
  obtain ⟨s, st⟩ := p
  cases st with
  | nil =>
    rcases accepting_iff_row s with rfl | hiff
    · cases h rfl
    · rw [hiff]
      simp [Pda.remaining, Pda.stackTop]
  | cons f st => simp [Pda.remaining, Pda.isAccepting]

theorem isQuery_append {u w : Bytes} {p : Pda} (h : Pda.new.advanceAll u = .ok p) :
    IsQuery (u ++ w) ↔ ∃ q, p.advanceAll w = .ok q ∧ q.isAccepting = true := by
  simp only [IsQuery, Pda.advanceAll_append]
  constructor
  · rintro ⟨q, ⟨p', hp', hq⟩, hacc⟩
    rw [h] at hp'
    cases hp'
    exact ⟨q, hq, hacc⟩
  · rintro ⟨q, hq, hacc⟩
    exact ⟨q, ⟨p, h, hq⟩, hacc⟩

/-- Every live stream has a completion of `remaining` bytes. -/
theorem exists_completion {u : Bytes} {p : Pda} (h : Pda.new.advanceAll u = .ok p) :
    ∃ w, IsQuery (u ++ w) ∧ w.length = p.remaining := by
  obtain ⟨w, d, hrun, hd, hzero, hlen⟩ := potential_remaining.descent (starInBracket_of_run h)
  refine ⟨w, (isQuery_append h).mpr ⟨.ofConfig d, ?_, ?_⟩, hlen⟩
  · exact Pda.advanceAll_eq_ok.mpr hrun
  · exact (remaining_eq_zero_iff (p := .ofConfig d) hd).mp hzero

/-- **The length of a shortest completion.** Every live stream is completed
by a continuation of `remaining` bytes and by no shorter one; that is one
byte for every open delimiter and at most five more. -/
theorem shortest_completion {u : Bytes} {p : Pda} (h : Pda.new.advanceAll u = .ok p) :
    (∃ w, IsQuery (u ++ w) ∧ w.length = p.remaining) ∧
    (∀ w, IsQuery (u ++ w) → p.remaining ≤ w.length) ∧
    p.stack.length ≤ p.remaining ∧ p.remaining ≤ p.stack.length + 5 := by
  have hstar := starInBracket_of_run h
  refine ⟨exists_completion h, ?_, Nat.le_add_right .., ?_⟩
  · intro w hw
    obtain ⟨q, hq, hacc⟩ := (isQuery_append h).mp hw
    have hrun := Pda.advanceAll_eq_ok.mp hq
    have hqstar : StarInBracket q.config := by
      refine starInBracket_of_run (w := u ++ w) ?_
      exact Pda.advanceAll_append.mpr ⟨p, h, hq⟩
    have hle := potential_remaining.le_length hstar hrun
    have hzero := (remaining_eq_zero_iff hqstar).mpr hacc
    simp only [Pda.ofConfig_config] at hle
    omega
  · have hmax : p.state.remaining p.stackTop ≤ 5 := by
      have hall : (allStates.all fun s => allTops.all fun top => decide (s.remaining top ≤ 5)) =
          true := by decide +kernel
      have hrow := List.all_eq_true.mp hall p.state (mem_allStates _)
      simpa using List.all_eq_true.mp hrow p.stackTop (mem_allTops _)
    rw [Pda.remaining]
    omega

/-- `|A.all()->filter(x|$x.` lacks a member's first byte and the `)`. -/
theorem shortest_completion_member :
    (∃ w, IsQuery (ascii "|A.all()->filter(x|$x." ++ w) ∧ w.length = 2) ∧
    ∀ w, IsQuery (ascii "|A.all()->filter(x|$x." ++ w) → 2 ≤ w.length := by
  have hlive : Pda.new.advanceAll (ascii "|A.all()->filter(x|$x.") = .ok ⟨.afterDot, [.paren]⟩ := by
    decide +kernel
  have h := shortest_completion hlive
  exact ⟨h.1, h.2.1⟩

end PureCard
