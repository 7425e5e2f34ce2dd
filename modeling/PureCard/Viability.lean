/-
PureCard.Viability — what a mask and a verdict say about queries.

The crate promises to mask "every next token that cannot lead to a valid
Pure query". `Viable IsQuery u` is the promise's subject: some query of the
grammar goes on from `u`. Since every live stream has a completion
(`exists_completion`), the automaton is alive exactly on those
(`viable_iff`).

`HasRead` is the invariant behind everything here: whatever bytes, tokens,
mask refills, resets and cache fills have come in any order, a session's
automaton is where its text leaves it. From it, `verdicts_viable` reads the
two decode calls, `mask_viable` the mask of a session without a schema, and
`mask_wellFormed` what every mask keeps.
-/
import PureCard.Lib.Decoding
import PureCard.Grammar.Shortest
import PureCard.Lockstep
import PureCard.MaskPacking

namespace PureCard

open Pushdown Decoding

/-- The queries of the grammar. -/
def queries : Set Bytes := {w | IsQuery w}

/-- **The automaton is alive on the fronts of queries**, and on nothing
else. -/
theorem viable_iff {u : Bytes} : Viable queries u ↔ ∃ p, Pda.new.advanceAll u = .ok p := by
  constructor
  · rintro ⟨w, p, hp, _⟩
    obtain ⟨q, hq, _⟩ := Pda.advanceAll_append.mp hp
    exact ⟨q, hq⟩
  · rintro ⟨p, hp⟩
    obtain ⟨w, hw, _⟩ := exists_completion hp
    exact ⟨w, hw⟩

theorem viable_append_iff {u v : Bytes} {p : Pda} (h : Pda.new.advanceAll u = .ok p) :
    Viable queries (u ++ v) ↔ ∃ q, p.advanceAll v = .ok q := by
  simp only [viable_iff, Pda.advanceAll_append]
  constructor
  · rintro ⟨q, p', hp', hq⟩
    rw [h] at hp'
    cases hp'
    exact ⟨q, hq⟩
  · rintro ⟨q, hq⟩
    exact ⟨q, p, h, hq⟩

theorem isQuery_iff {u : Bytes} {p : Pda} (h : Pda.new.advanceAll u = .ok p) :
    u ∈ queries ↔ p.isAccepting = true := by
  constructor
  · rintro ⟨q, hq, hacc⟩
    rw [h] at hq
    cases hq
    exact hacc
  · intro hacc
    exact ⟨p, h, hacc⟩

/-- What is reported of a dead byte. -/
theorem Pda.dead_of_advance {p : Pda} {b : UInt8} {dead : DeadState} (h : p.advance b = .error dead) :
    dead = ⟨p.state.name, (p.stackTop.map Frame.name).getD "none"⟩ := by
  unfold advance at h
  split at h
  · cases h
  · cases h
    rfl

namespace Session

/-! ## Any order of calls -/

/-- What a host may do to one session: a byte, or one of its calls. -/
inductive Op where
  | byte (b : UInt8)
  | call (c : Call)

def op (s : Session) : Op → Session
  | .byte b => (s.callAcceptByte b).1
  | .call c => (s.call c).1

def ops (s : Session) (os : List Op) : Session := os.foldl op s

/-- What a token adds to the text of a session. -/
def sign (vocab : Vocab) (id : Nat) : Sign UInt8 :=
  if id = vocab.eosBit then .stop
  else
    match vocab.bytes id with
    | some bytes => .text bytes
    | none => .unknown

/-- The text since the last reset, after one more step: what was refused is
no part of it. -/
def textStep (s : Session) (text : Bytes) : Op → Bytes
  | .byte b =>
    match (s.callAcceptByte b).2 with
    | .ok () => text ++ [b]
    | .error _ => text
  | .call (.accept id) =>
    match (s.callAcceptToken id).2 with
    | .ok () => text ++ (sign s.grammar.vocab id).spelled
    | .error _ => text
  | .call .reset => []
  | .call .mask | .call (.shared _) => text

/-- The text since the last reset. -/
def text (s : Session) (u : Bytes) : List Op → Bytes
  | [] => u
  | o :: rest => (s.op o).text (s.textStep u o) rest

/-- What an accepted token was, and what it did. -/
theorem acceptToken_ok_iff {s s' : Session} {id : Nat} : s.acceptToken id = .ok s' ↔
    (id = s.grammar.vocab.eosBit ∧ s.pda.isAccepting = true ∧ s' = s) ∨
    (id ≠ s.grammar.vocab.eosBit ∧ ∃ bytes p, s.grammar.vocab.bytes id = some bytes ∧
      s.pda.advanceAll bytes = .ok p ∧ s' = s.commit bytes p) := by
  rw [acceptToken]
  by_cases heos : id = s.grammar.eosBit
  · have heos' : id = s.grammar.vocab.eosBit := heos
    rw [if_pos heos]
    cases s.pda.isAccepting with
    | true => simpa [heos'] using eq_comm
    | false => simp [heos']
  · have heos' : id ≠ s.grammar.vocab.eosBit := heos
    rw [if_neg heos]
    cases s.grammar.vocab.bytes id with
    | none => simp [heos']
    | some bytes =>
      dsimp only
      cases hadv : s.pda.advanceAll bytes with
      | ok p => simpa [heos', hadv] using eq_comm
      | error dead => simp [heos', hadv]

/-- The session has read the text `u`. -/
structure HasRead (s : Session) (vocab : Vocab) (u : Bytes) : Prop where
  live : Pda.new.advanceAll u = .ok s.pda
  offset : s.offset = u.length
  vocab : s.grammar.vocab = vocab
  memo : s.MemoValid

theorem hasRead_build (g : CompiledGrammar) (schema : Option Schema) :
    (build g schema).HasRead g.vocab [] := ⟨rfl, rfl, rfl, memoValid_build g schema⟩

namespace HasRead

variable {s : Session} {vocab : Vocab} {u : Bytes}

theorem commit (h : s.HasRead vocab u) {bytes : Bytes} {p : Pda}
    (hp : s.pda.advanceAll bytes = .ok p) : (s.commit bytes p).HasRead vocab (u ++ bytes) := by
  refine ⟨Pda.advanceAll_append.mpr ⟨s.pda, h.live, hp⟩, ?_, h.vocab, h.memo.commit bytes p⟩
  rw [List.length_append, ← h.offset]
  rfl

theorem byte (h : s.HasRead vocab u) (b : UInt8) :
    (s.op (.byte b)).HasRead vocab (s.textStep u (.byte b)) := by
  rw [op, textStep, callAcceptByte_eq, acceptByte]
  cases hadv : s.pda.advance b with
  | error dead => exact h
  | ok p =>
    have hall : s.pda.advanceAll [b] = .ok p := by
      rw [Pda.advanceAll, hadv]
      rfl
    refine ⟨Pda.advanceAll_append.mpr ⟨s.pda, h.live, hall⟩, ?_, h.vocab, h.memo⟩
    rw [List.length_append, ← h.offset]
    rfl

theorem accept (h : s.HasRead vocab u) (id : Nat) :
    (s.op (.call (.accept id))).HasRead vocab (s.textStep u (.call (.accept id))) := by
  rw [op, textStep, call, callAcceptToken_eq]
  cases hacc : s.acceptToken id with
  | error e => exact h
  | ok s' =>
    show s'.HasRead vocab (u ++ (sign s.grammar.vocab id).spelled)
    rw [sign]
    rcases acceptToken_ok_iff.mp hacc with ⟨heos, _, rfl⟩ | ⟨heos, bytes, p, hbytes, hadv, rfl⟩
    · rw [if_pos heos, Sign.spelled, List.append_nil]
      exact h
    · rw [if_neg heos, hbytes]
      exact h.commit hadv

/-- **One step of any kind** keeps the automaton where the text leaves it. -/
theorem op (h : s.HasRead vocab u) (o : Op) : (s.op o).HasRead vocab (s.textStep u o) := by
  cases o with
  | byte b => exact h.byte b
  | call c =>
    cases c with
    | accept id => exact h.accept id
    | mask => exact ⟨h.live, h.offset, (vocab_call s .mask).trans h.vocab, h.memo.allowedMask⟩
    | reset => exact ⟨rfl, rfl, h.vocab, h.memo.reset⟩
    | shared state => exact ⟨h.live, h.offset, h.vocab, h.memo⟩

theorem ops (h : s.HasRead vocab u) (os : List Op) : (s.ops os).HasRead vocab (s.text u os) := by
  induction os generalizing s u with
  | nil => exact h
  | cons o rest ih => exact ih (h.op o)

end HasRead

/-! ## Verdicts and masks -/

theorem mem_ideal {vocab : Vocab} {u : Bytes} {id : Nat} : id ∈ ideal queries (sign vocab) u ↔
    (id = vocab.eosBit ∧ u ∈ queries) ∨
    (id ≠ vocab.eosBit ∧ ∃ bytes, vocab.bytes id = some bytes ∧ Viable queries (u ++ bytes)) := by
  unfold ideal sign
  by_cases heos : id = vocab.eosBit
  · simp [heos]
  · cases hbytes : vocab.bytes id <;> simp [heos, hbytes]

namespace HasRead

variable {s : Session} {vocab : Vocab} {u : Bytes}

theorem isComplete_iff (h : s.HasRead vocab u) : s.isComplete = true ↔ u ∈ queries :=
  (isQuery_iff h.live).symm

theorem acceptByte_iff (h : s.HasRead vocab u) (b : UInt8) :
    (s.callAcceptByte b).2 = .ok () ↔ Viable queries (u ++ [b]) := by
  rw [viable_append_iff h.live, callAcceptByte_eq, acceptByte]
  cases hadv : s.pda.advance b with
  | ok p => simp [Pda.advanceAll, hadv]
  | error dead => simp [Pda.advanceAll, hadv]

theorem acceptToken_iff (h : s.HasRead vocab u) (id : Nat) :
    (s.callAcceptToken id).2 = .ok () ↔ id ∈ ideal queries (sign vocab) u := by
  have hok : (s.callAcceptToken id).2 = .ok () ↔ ∃ s', s.acceptToken id = .ok s' := by
    rw [callAcceptToken_eq]
    cases s.acceptToken id <;> simp
  rw [hok, mem_ideal, isQuery_iff h.live, ← h.vocab]
  simp only [viable_append_iff h.live, acceptToken_ok_iff]
  constructor
  · rintro ⟨s', ⟨heos, hacc, _⟩ | ⟨heos, bytes, p, hbytes, hp, _⟩⟩
    · exact .inl ⟨heos, hacc⟩
    · exact .inr ⟨heos, bytes, hbytes, p, hp⟩
  · rintro (⟨heos, hacc⟩ | ⟨heos, bytes, hbytes, p, hp⟩)
    · exact ⟨s, .inl ⟨heos, hacc, rfl⟩⟩
    · exact ⟨_, .inr ⟨heos, bytes, p, hbytes, hp, rfl⟩⟩

/-- What a set bit promises, with a schema or without. -/
theorem ideal_of_allows (h : s.HasRead vocab u) {id : Nat} (hid : s.allows id = true) :
    id ≤ vocab.eosBit ∧ id ∈ ideal queries (sign vocab) u := by
  have heos : s.grammar.eosBit = vocab.eosBit := congrArg Vocab.eosBit h.vocab
  rw [allows_iff h.memo, heos, h.vocab] at hid
  rw [mem_ideal]
  rcases hid with ⟨hlt, hadmits, _⟩ | ⟨rfl, hacc⟩
  · obtain ⟨p, hp⟩ := Pda.admits_iff.mp hadmits
    exact ⟨hlt.le, .inr ⟨hlt.ne, _, Vocab.bytes_of_lt hlt, (viable_append_iff h.live).mpr ⟨p, hp⟩⟩⟩
  · exact ⟨le_rfl, .inl ⟨rfl, (isQuery_iff h.live).mpr hacc⟩⟩

/-- Without a schema the mask is the ideal offer. -/
theorem allows_iff_ideal (h : s.HasRead vocab u) (hL1 : s.schema = none) (id : Nat) :
    s.allows id = true ↔ id ≤ vocab.eosBit ∧ id ∈ ideal queries (sign vocab) u := by
  refine ⟨h.ideal_of_allows, ?_⟩
  rintro ⟨hle, hid⟩
  have heos : s.grammar.eosBit = vocab.eosBit := congrArg Vocab.eosBit h.vocab
  rw [allows_iff h.memo, heos, h.vocab]
  rcases mem_ideal.mp hid with ⟨rfl, hword⟩ | ⟨hne, bytes, hbytes, hviable⟩
  · exact .inr ⟨rfl, (isQuery_iff h.live).mp hword⟩
  · have hlegal : s.legal (vocab.bytesOrEmpty id) = true := by
      simp only [legal, hL1]
    obtain ⟨p, hp⟩ := (viable_append_iff h.live).mp hviable
    refine .inl ⟨lt_of_le_of_ne hle hne, Pda.admits_iff.mpr ⟨p, ?_⟩, hlegal⟩
    rwa [Vocab.bytesOrEmpty, hbytes]

end HasRead

theorem schema_op (s : Session) (o : Op) : (s.op o).schema = s.schema := by
  cases o with
  | byte b =>
    rw [op, callAcceptByte_eq, acceptByte]
    cases s.pda.advance b <;> rfl
  | call c =>
    cases c with
    | accept id => exact (vocab_callAcceptToken s id).2
    | _ => rfl

theorem schema_ops (s : Session) (os : List Op) : (s.ops os).schema = s.schema := by
  induction os generalizing s with
  | nil => rfl
  | cons o rest ih => exact (ih (s.op o)).trans (s.schema_op o)

/-- **What a mask is.** After bytes, tokens, refills, resets and fills by
other sessions in any order, the mask of a session without a schema is the
ideal offer: a token is in it exactly when some query of the grammar goes
on behind it, and EOS exactly when the text is a query. -/
theorem mask_viable (g : CompiledGrammar) (os : List Op) (id : Nat) :
    ((build g none).ops os).allows id = true ↔
      id ≤ g.eosBit ∧ id ∈ ideal queries (sign g.vocab) ((build g none).text [] os) :=
  ((hasRead_build g none).ops os).allows_iff_ideal (schema_ops _ os) id

/-- **What a verdict is.** After any steps in any order, with a schema or
without, a byte is accepted exactly when some query goes on behind it, and
a refused one is reported at the length of the text with the names of the
automaton's state and top frame; a token is accepted exactly when the
ideal offer has it. -/
theorem verdicts_viable (g : CompiledGrammar) (schema : Option Schema) (os : List Op) :
    let s := (build g schema).ops os
    let u := (build g schema).text [] os
    (∀ b, (s.callAcceptByte b).2 = .ok () ↔ Viable queries (u ++ [b])) ∧
    (∀ b e, (s.callAcceptByte b).2 = .error e → ∃ p, Pda.new.advanceAll u = .ok p ∧
      e = .deadState u.length b ⟨p.state.name, (p.stackTop.map Frame.name).getD "none"⟩) ∧
    (∀ id, (s.callAcceptToken id).2 = .ok () ↔ id ∈ ideal queries (sign g.vocab) u) ∧
    (s.isComplete = true ↔ u ∈ queries) := by
  have h := (hasRead_build g schema).ops os
  refine ⟨h.acceptByte_iff, ?_, h.acceptToken_iff, h.isComplete_iff⟩
  intro b e he
  refine ⟨_, h.live, ?_⟩
  rw [callAcceptByte_eq, acceptByte] at he
  cases hadv : ((build g schema).ops os).pda.advance b with
  | ok p =>
    rw [hadv] at he
    cases he
  | error dead =>
    rw [hadv] at he
    cases he
    rw [h.offset, Pda.dead_of_advance hadv]

/-- **What every mask keeps.** After any steps in any order, with a schema
or without, the mask spans the vocabulary and the EOS bit and no bit of its
words lies beyond them; a set bit is a token that is accepted; the EOS bit
is set exactly when the text is a query. -/
theorem mask_wellFormed (g : CompiledGrammar) (schema : Option Schema) (os : List Op) :
    let s := (build g schema).ops os
    s.allowedMask.mask.len = g.eosBit + 1 ∧
    (∀ k, s.allowedMask.mask.bit k = true → k ≤ g.eosBit) ∧
    (∀ id, s.allows id = true → (s.callAcceptToken id).2 = .ok ()) ∧
    (s.allows g.eosBit = true ↔ (build g schema).text [] os ∈ queries) := by
  have h := (hasRead_build g schema).ops os
  have hlen : ((build g schema).ops os).allowedMask.mask.len = g.eosBit + 1 := by
    rw [((build g schema).ops os).allowedMask.mask_len]
    have hvocab : ((build g schema).ops os).allowedMask.grammar.vocab = g.vocab :=
      (vocab_call _ .mask).trans h.vocab
    rw [hvocab]
    rfl
  refine ⟨hlen, ?_, fun id hid => (h.acceptToken_iff id).mpr (h.ideal_of_allows hid).2, ?_⟩
  · intro k hk
    by_contra hlt
    rw [((build g schema).ops os).clipped_allowedMask k (by omega)] at hk
    cases hk
  · have heos : ((build g schema).ops os).grammar.eosBit = g.eosBit := congrArg Vocab.eosBit h.vocab
    rw [← heos, allows_eosBit h.memo]
    exact h.isComplete_iff

end Session

end PureCard
