/-
PureCard.Emission — what a host that obeys the masks can emit.

`replayTokens` is the driver of the token lanes (`tests/support/bpe.rs`):
before each token it refills the mask and tests the token's bit, then it
commits the token, and at the end it asks for completeness and for the EOS
bit. Two of its four failures never happen, on any session
(`replay_outcomes`).

A run of it is a run of the decoder that offers the session's bits
(`HasRead.replay_iff_emits`). Without a schema that is the ideal decoder of the grammar
(`replay_exact`): it emits exactly the queries that the tokens spell, among
them every sample a self-check has passed (`selfCheck_emits`). With a schema
it emits some of them. `GuaranteeLevel` orders the two, and the order is the
inclusion of what is emitted (`levels_nest`).
-/
import PureCard.Viability
import PureCard.SelfCheck

namespace PureCard

open Pushdown Decoding

/-- Why a replay failed, at which id and step. -/
inductive ReplayError where
  | masked (id step : Nat)
  | rejected (id step : Nat) (err : DecodeError)
  | incomplete
  | eosCleared

namespace Session

/-! ## The driver -/

/-- The loop of `replay_tokens` over its ids, from a step on. -/
def replayLoop (s : Session) (step : Nat) : List Nat → Except ReplayError Session
  | [] => .ok s
  | id :: rest =>
    let s := s.allowedMask
    if s.mask.test id then
      match s.callAcceptToken id with
      | (s, .ok ()) => s.replayLoop (step + 1) rest
      | (_, .error e) => .error (.rejected id step e)
    else .error (.masked id step)

/-- `replay_tokens`, with the session as it leaves it. -/
def replayTokens (s : Session) (ids : List Nat) (eos : Nat) : Except ReplayError Session :=
  match s.replayLoop 0 ids with
  | .error e => .error e
  | .ok s =>
    if s.isComplete then
      let s := s.allowedMask
      if s.mask.test eos then .ok s else .error .eosCleared
    else .error .incomplete

/-- One turn of the loop that goes through. -/
structure Turn (s : Session) (id : Nat) (s' : Session) : Prop where
  allowed : s.allows id = true
  accepted : s.allowedMask.callAcceptToken id = (s', .ok ())

/-- The loop goes through the ids and leaves the session `s'`. -/
inductive Replays : Session → List Nat → Session → Prop where
  | nil (s : Session) : Replays s [] s
  | cons {s s₁ s' : Session} {id : Nat} {ids : List Nat} (hturn : s.Turn id s₁)
      (hrest : Replays s₁ ids s') : Replays s (id :: ids) s'

section

variable {s s₁ s' : Session} {vocab : Vocab} {u : Bytes} {id step : Nat} {ids past : List Nat}

theorem Replays.append {ids' : List Nat} (h : Replays s ids s₁) (h' : Replays s₁ ids' s') :
    Replays s (ids ++ ids') s' := by
  induction h with
  | nil s => exact h'
  | cons hturn _ ih => exact .cons hturn (ih h')

theorem Replays.split {ids' : List Nat} (h : Replays s (ids ++ ids') s') :
    ∃ s₁, Replays s ids s₁ ∧ Replays s₁ ids' s' := by
  induction ids generalizing s with
  | nil => exact ⟨s, .nil s, h⟩
  | cons id ids ih =>
    cases h with
    | cons hturn hrest =>
      obtain ⟨s₂, hids, hids'⟩ := ih hrest
      exact ⟨s₂, .cons hturn hids, hids'⟩

theorem Replays.unique {t : Session} (h : Replays s ids s') (h' : Replays s ids t) : s' = t := by
  induction h with
  | nil s =>
    cases h'
    rfl
  | cons hturn _ ih =>
    cases h' with
    | cons hturn' hrest' =>
      have hsame := hturn.accepted.symm.trans hturn'.accepted
      simp only [Prod.mk.injEq, and_true] at hsame
      subst hsame
      exact ih hrest'

theorem HasRead.turn (h : s.HasRead vocab u) (hturn : s.Turn id s') :
    s'.HasRead vocab (u ++ (sign vocab id).spelled) := by
  have hmask : s.allowedMask.HasRead vocab u := h.op (.call .mask)
  have hstep := hmask.op (.call (.accept id))
  have hvocab : s.allowedMask.grammar.vocab = vocab := hmask.vocab
  rw [Session.op, call, textStep, hturn.accepted, hvocab] at hstep
  exact hstep

theorem HasRead.replays (h : s.HasRead vocab u) (hrun : Replays s ids s') :
    s'.HasRead vocab (u ++ textOf (sign vocab) ids) := by
  induction hrun generalizing u with
  | nil s => rwa [textOf_nil, List.append_nil]
  | cons hturn _ ih =>
    rw [textOf_cons, ← List.append_assoc]
    exact ih (h.turn hturn)

/-- **A token whose bit is set goes through**: it is not refused. -/
theorem HasRead.turns (h : s.HasRead vocab u) (hid : s.allows id = true) : ∃ s', s.Turn id s' := by
  have hmask : s.allowedMask.HasRead vocab u := h.op (.call .mask)
  have hok := (hmask.acceptToken_iff id).mpr (h.ideal_of_allows hid).2
  cases hcall : s.allowedMask.callAcceptToken id with
  | mk s₁ out =>
    rw [hcall] at hok
    have hout : out = .ok () := hok
    subst hout
    exact ⟨s₁, hid, hcall⟩

theorem replayLoop_cons_of_turn (hturn : s.Turn id s') :
    s.replayLoop step (id :: ids) = s'.replayLoop (step + 1) ids := by
  have hbit : s.allowedMask.mask.test id = true := hturn.allowed
  rw [replayLoop]
  simp only [hbit, if_true, hturn.accepted]

/-- How the loop ends: through all ids, or at the first one whose bit is
cleared. -/
theorem HasRead.replayLoop_cases (h : s.HasRead vocab u) (ids : List Nat) (step : Nat) :
    (∃ s', Replays s ids s' ∧ s.replayLoop step ids = .ok s') ∨
    ∃ front id rest s', ids = front ++ id :: rest ∧ Replays s front s' ∧ s'.allows id = false ∧
      s.replayLoop step ids = .error (.masked id (step + front.length)) := by
  induction ids generalizing s u step with
  | nil => exact .inl ⟨s, .nil s, rfl⟩
  | cons id ids ih =>
    cases hid : s.allows id with
    | false =>
      refine .inr ⟨[], id, ids, s, rfl, .nil s, hid, ?_⟩
      have hbit : s.allowedMask.mask.test id = false := hid
      rw [replayLoop]
      simp [hbit]
    | true =>
      obtain ⟨s₁, hturn⟩ := h.turns hid
      rw [replayLoop_cons_of_turn hturn]
      rcases ih (h.turn hturn) (step + 1) with ⟨s', hrun, hloop⟩ |
        ⟨front, id', rest, s', rfl, hrun, hclear, hloop⟩
      · exact .inl ⟨s', .cons hturn hrun, hloop⟩
      · refine .inr ⟨id :: front, id', rest, s', rfl, .cons hturn hrun, hclear, ?_⟩
        rw [hloop, List.length_cons, Nat.add_assoc, Nat.add_comm 1]

/-- The tokens a session offers behind a stream that it has let through. -/
def offers (s : Session) (past : List Nat) : Set Nat :=
  {id | ∃ s', Replays s past s' ∧ s'.allows id = true}

/-- The ids went through one by one exactly when each was offered. -/
theorem HasRead.replays_iff_follows (h : s.HasRead vocab u) :
    (∃ s', Replays s past s') ↔ Follows s.offers past := by
  induction past using List.reverseRecOn with
  | nil => exact iff_of_true ⟨s, .nil s⟩ fun front i rest hsplit => by simp at hsplit
  | append_singleton past id ih =>
    rw [follows_concat, ← ih]
    constructor
    · rintro ⟨s', hrun⟩
      obtain ⟨s₁, hpast, hlast⟩ := hrun.split
      cases hlast with
      | cons hturn _ => exact ⟨⟨s₁, hpast⟩, s₁, hpast, hturn.allowed⟩
    · rintro ⟨_, s₁, hpast, hid⟩
      obtain ⟨s', hturn⟩ := (h.replays hpast).turns hid
      exact ⟨s', hpast.append (.cons hturn (.nil s'))⟩

/-- How a replay from the start of a stream ends. -/
theorem HasRead.replayTokens_cases (h : s.HasRead vocab []) (ids : List Nat) :
    (∃ s', Replays s ids s' ∧ textOf (sign vocab) ids ∈ queries ∧
      s.replayTokens ids vocab.eosBit = .ok s'.allowedMask) ∨
    (∃ s', Replays s ids s' ∧ textOf (sign vocab) ids ∉ queries ∧
      s.replayTokens ids vocab.eosBit = .error .incomplete) ∨
    ∃ front id rest s', ids = front ++ id :: rest ∧ Replays s front s' ∧ s'.allows id = false ∧
      s.replayTokens ids vocab.eosBit = .error (.masked id front.length) := by
  rcases h.replayLoop_cases ids 0 with ⟨s', hrun, hloop⟩ |
    ⟨front, id, rest, s', hids, hrun, hclear, hloop⟩
  · have hread := h.replays hrun
    rw [List.nil_append] at hread
    have hcomplete := hread.isComplete_iff
    rw [replayTokens, hloop]
    dsimp only
    by_cases hquery : textOf (sign vocab) ids ∈ queries
    · have hbit : s'.allows vocab.eosBit = true := by
        have heos : s'.grammar.eosBit = vocab.eosBit := congrArg Vocab.eosBit hread.vocab
        rw [← heos, allows_eosBit hread.memo]
        exact hcomplete.mpr hquery
      have htest : s'.allowedMask.mask.test vocab.eosBit = true := hbit
      rw [if_pos (hcomplete.mpr hquery), if_pos htest]
      exact .inl ⟨s', hrun, hquery, rfl⟩
    · rw [if_neg (mt hcomplete.mp hquery)]
      exact .inr (.inl ⟨s', hrun, hquery, rfl⟩)
  · refine .inr (.inr ⟨front, id, rest, s', hids, hrun, hclear, ?_⟩)
    rw [replayTokens, hloop, Nat.zero_add]

/-- **A replay is a run of the decoder that offers the bits.** -/
theorem HasRead.replay_iff_emits (h : s.HasRead vocab []) :
    (∃ s', s.replayTokens ids vocab.eosBit = .ok s') ↔
      Emits queries (sign vocab) s.offers [] ids := by
  have hfollows : (∃ s', Replays s ids s') ↔ Follows s.offers ids := h.replays_iff_follows
  rw [emits_iff, List.nil_append]
  have hcases := h.replayTokens_cases ids
  constructor
  · rintro ⟨s', hok⟩
    rcases hcases with ⟨s₁, hrun, hquery, -⟩ | ⟨_, _, _, herr⟩ | ⟨_, _, _, _, _, _, _, herr⟩
    · exact ⟨hfollows.mp ⟨s₁, hrun⟩, hquery⟩
    · cases hok.symm.trans herr
    · cases hok.symm.trans herr
  · rintro ⟨hoffer, hquery⟩
    obtain ⟨s', hrun⟩ := hfollows.mpr hoffer
    rcases hcases with ⟨s₁, _, _, hok⟩ | ⟨_, _, hno, _⟩ | ⟨front, id, rest, s₁, rfl, hfront, hclear, _⟩
    · exact ⟨_, hok⟩
    · exact absurd hquery hno
    · obtain ⟨s₂, hfront', hrest⟩ := hrun.split
      cases hrest with
      | cons hturn _ =>
        rw [hfront.unique hfront', hturn.allowed] at hclear
        cases hclear

end

/-! ## What is emitted -/

/-- A session that has been reset, whatever came before. -/
def restarted (g : CompiledGrammar) (schema : Option Schema) (os : List Op) : Session :=
  ((build g schema).ops os).reset

theorem hasRead_restarted (g : CompiledGrammar) (schema : Option Schema) (os : List Op) :
    (restarted g schema os).HasRead g.vocab [] :=
  ((hasRead_build g schema).ops os).op (.call .reset)

/-- **How a replay ends.** With a schema or without, after any steps and a
reset, a replay goes through and leaves a query, or goes through and leaves
none, or stops at the first id whose bit is cleared. No id whose bit is set
is refused, and no complete query lacks the EOS bit. -/
theorem replay_outcomes (g : CompiledGrammar) (schema : Option Schema) (os : List Op)
    (ids : List Nat) :
    let s := restarted g schema os
    (∃ s', Replays s ids s' ∧ textOf (sign g.vocab) ids ∈ queries ∧
      s.replayTokens ids g.eosBit = .ok s'.allowedMask) ∨
    (∃ s', Replays s ids s' ∧ textOf (sign g.vocab) ids ∉ queries ∧
      s.replayTokens ids g.eosBit = .error .incomplete) ∨
    ∃ front id rest s', ids = front ++ id :: rest ∧ Replays s front s' ∧ s'.allows id = false ∧
      s.replayTokens ids g.eosBit = .error (.masked id front.length) :=
  (hasRead_restarted g schema os).replayTokens_cases ids

theorem sign_eq_stop {vocab : Vocab} {id : Nat} : sign vocab id = .stop ↔ id = vocab.eosBit := by
  unfold sign
  by_cases heos : id = vocab.eosBit
  · simp [heos]
  · cases vocab.bytes id <;> simp [heos]

theorem sign_of_lt {vocab : Vocab} {id : Nat} (h : id < vocab.eosBit) :
    sign vocab id = .text (vocab.bytesOrEmpty id) := by
  rw [sign, if_neg (Nat.ne_of_lt h), Vocab.bytes_of_lt h]

/-- Without a schema, what the ideal decoder emits of the maskable ids is
what is offered. -/
theorem HasRead.replays_of_ideal {s : Session} {vocab : Vocab} (h : s.HasRead vocab [])
    (hL1 : s.schema = none) {past : List Nat}
    (hpast : Follows (fun p => {id | id ≤ vocab.eosBit ∧
      id ∈ ideal queries (sign vocab) (textOf (sign vocab) p)}) past) :
    ∃ s', Replays s past s' ∧ s'.schema = none := by
  induction past using List.reverseRecOn with
  | nil => exact ⟨s, .nil s, hL1⟩
  | append_singleton past id ih =>
    rw [follows_concat] at hpast
    obtain ⟨s₁, hrun, hnone⟩ := ih hpast.1
    have hread := h.replays hrun
    rw [List.nil_append] at hread
    obtain ⟨s', hturn⟩ := hread.turns ((hread.allows_iff_ideal hnone id).mpr hpast.2)
    refine ⟨s', hrun.append (.cons hturn (.nil s')), ?_⟩
    have hschema := (vocab_callAcceptToken s₁.allowedMask id).2
    rw [hturn.accepted] at hschema
    exact hschema.trans hnone

/-- **Without a schema a replay is exact**: what goes through are the ids of
the table, and EOS behind a query, that spell a query. -/
theorem HasRead.replay_iff {s : Session} {vocab : Vocab} (h : s.HasRead vocab [])
    (hL1 : s.schema = none) (ids : List Nat) :
    (∃ s', s.replayTokens ids vocab.eosBit = .ok s') ↔
      (∀ id ∈ ids, id ≤ vocab.eosBit) ∧
      (∀ front rest, ids = front ++ vocab.eosBit :: rest → textOf (sign vocab) front ∈ queries) ∧
      textOf (sign vocab) ids ∈ queries := by
  rw [h.replay_iff_emits]
  constructor
  · intro hemits
    obtain ⟨hoffer, hquery⟩ := emits_iff.mp hemits
    have hbit : ∀ front id rest, ids = front ++ id :: rest →
        id ≤ vocab.eosBit ∧ id ∈ ideal queries (sign vocab) (textOf (sign vocab) front) := by
      intro front id rest hsplit
      obtain ⟨s', hrun, hid⟩ := hoffer front id rest hsplit
      exact (h.replays hrun).ideal_of_allows hid
    refine ⟨fun id hid => ?_, fun front rest hsplit => ?_, hquery⟩
    · obtain ⟨front, rest, hsplit⟩ := List.append_of_mem hid
      exact (hbit front id rest hsplit).1
    · rcases mem_ideal.mp (hbit front vocab.eosBit rest hsplit).2 with ⟨-, hword⟩ | ⟨hne, -⟩
      · exact hword
      · exact absurd rfl hne
  · rintro ⟨hle, hstops, hquery⟩
    have hsigned : WellSigned queries (sign vocab) ids := by
      constructor
      · intro id hid
        rcases lt_or_eq_of_le (hle id hid) with hlt | heos
        · simp [sign_of_lt hlt]
        · simp [sign_eq_stop.mpr heos]
      · intro front id rest hsplit hstop
        rw [sign_eq_stop.mp hstop] at hsplit
        exact hstops front rest hsplit
    have hideal := emits_iff.mp (emits_ideal.mpr ⟨hsigned, hquery⟩)
    have hmaskable : Emits queries (sign vocab) (fun p => {id | id ≤ vocab.eosBit ∧
        id ∈ ideal queries (sign vocab) (textOf (sign vocab) p)}) [] ids := by
      refine emits_iff.mpr ⟨fun front id rest hsplit => ⟨?_, hideal.1 front id rest hsplit⟩, hquery⟩
      exact hle id (by rw [hsplit]; simp)
    refine hmaskable.mono (fun front id rest hsplit => by simp at hsplit) fun past hpast id hid => ?_
    obtain ⟨s', hrun, hnone⟩ := h.replays_of_ideal hL1 hpast
    have hread := h.replays hrun
    exact ⟨s', hrun, (hread.allows_iff_ideal hnone id).mpr hid⟩

/-- **The emitted language.** Without a schema, after any steps and a reset,
the ids that replay are those of the table or EOS, with EOS only behind a
query, whose text is a query: a host that obeys the masks emits every query
its tokens spell, in every spelling, and nothing else. -/
theorem replay_exact (g : CompiledGrammar) (os : List Op) (ids : List Nat) :
    (∃ s', (restarted g none os).replayTokens ids g.eosBit = .ok s') ↔
      (∀ id ∈ ids, id ≤ g.eosBit) ∧
      (∀ front rest, ids = front ++ g.eosBit :: rest → textOf (sign g.vocab) front ∈ queries) ∧
      textOf (sign g.vocab) ids ∈ queries :=
  (hasRead_restarted g none os).replay_iff (schema_ops _ os) ids

/-! ### The samples of a self-check -/

theorem textOf_greedy {vocab : Vocab} {ids : List Nat} {front rest : Bytes}
    (h : vocab.Greedy ids front rest) :
    textOf (sign vocab) ids = front ∧ ∀ id ∈ ids, id < vocab.eosBit := by
  induction h with
  | nil => exact ⟨rfl, by simp⟩
  | @cons id ids t front rest ht _ ih =>
    have hempty : vocab.bytesOrEmpty id = t := by rw [Vocab.bytesOrEmpty, ht.bytes, Option.getD_some]
    refine ⟨?_, List.forall_mem_cons.mpr ⟨ht.lt, ih.2⟩⟩
    rw [textOf_cons, sign_of_lt ht.lt, hempty, ih.1]
    rfl

/-- **A passed self-check is a promise about decoding.** Every sample that
`self_check` has passed is emitted, in its longest matches, by a host that
obeys the masks. -/
theorem selfCheck_emits {g : CompiledGrammar} {samples : List Bytes}
    (hpass : selfCheck g samples = .ok ()) (os : List Op) {query : Bytes} (hquery : query ∈ samples) :
    ∃ ids s', g.vocab.Greedy ids query [] ∧ textOf (sign g.vocab) ids = query ∧
      (restarted g none os).replayTokens ids g.eosBit = .ok s' := by
  obtain ⟨ids, p, hgreedy, hlive, haccept⟩ := (checkSamples_ok_iff samples g 0).mp hpass query hquery
  obtain ⟨htext, hlt⟩ := textOf_greedy hgreedy
  have hstops : ∀ front rest, ids = front ++ g.eosBit :: rest →
      textOf (sign g.vocab) front ∈ queries := by
    intro front rest hsplit
    exact absurd (hlt g.eosBit (by rw [hsplit]; simp)) (lt_irrefl _)
  have hword : textOf (sign g.vocab) ids ∈ queries := by
    rw [htext]
    exact ⟨p, hlive, haccept⟩
  obtain ⟨s', hs'⟩ := ((hasRead_restarted g none os).replay_iff (schema_ops _ os) ids).mpr ⟨fun id hid => (hlt id hid).le, hstops, hword⟩
  exact ⟨ids, s', hgreedy, htext, hs'⟩

/-- A vocabulary that takes one query in two tokens. -/
theorem selfCheck_emits_two : ∃ ids s',
    (CompiledGrammar.compile ⟨[ascii "|A.all", ascii "|A", ascii "()"], 3⟩).vocab.Greedy ids
      (ascii "|A.all()") [] ∧
    textOf (sign (CompiledGrammar.compile ⟨[ascii "|A.all", ascii "|A", ascii "()"], 3⟩).vocab) ids =
      ascii "|A.all()" ∧
    (restarted (.compile ⟨[ascii "|A.all", ascii "|A", ascii "()"], 3⟩) none
      [.call (.accept 0), .byte Byte.dot]).replayTokens ids
        (CompiledGrammar.compile ⟨[ascii "|A.all", ascii "|A", ascii "()"], 3⟩).eosBit = .ok s' := by
  have hpass : selfCheck (.compile ⟨[ascii "|A.all", ascii "|A", ascii "()"], 3⟩)
      [ascii "|A.all()"] = .ok () := by decide +kernel
  exact selfCheck_emits hpass _ (by simp)

end Session

/-! ## Guarantee levels -/

/-- The nested guarantee levels, weakest first (`src/lib.rs`). -/
inductive GuaranteeLevel where
  | syntactic
  | schemaConsistent
  | faithful
  deriving DecidableEq

namespace GuaranteeLevel

/-- The position in the declaration, which the derived order compares. -/
def rank : GuaranteeLevel → Nat
  | .syntactic => 0
  | .schemaConsistent => 1
  | .faithful => 2

def maxEnforceable : GuaranteeLevel := .schemaConsistent

def guarantees (self other : GuaranteeLevel) : Bool := other.rank ≤ self.rank

def isEnforceable (self : GuaranteeLevel) : Bool := self.rank ≤ maxEnforceable.rank

/-- The session that enforces a level: `DecoderSession::new` is L1 only,
`with_schema` also enforces the overlay, and nothing enforces L3. -/
def session (g : CompiledGrammar) (schema : Schema) : GuaranteeLevel → Option Session
  | .syntactic => some (.build g none)
  | .schemaConsistent => some (.build g (some schema))
  | .faithful => none

/-- The id streams a host can emit under a level. -/
def Emitted (g : CompiledGrammar) (schema : Schema) (level : GuaranteeLevel) : Set (List Nat) :=
  {ids | ∃ s s', level.session g schema = some s ∧ s.replayTokens ids g.eosBit = .ok s'}

end GuaranteeLevel

namespace Session

/-- A session without a schema goes through whatever the one beside it goes
through. -/
theorem Beside.replays {t t' s : Session} {ids : List Nat} (h : t.Beside s)
    (hrun : Replays t ids t') : ∃ s', Replays s ids s' ∧ t'.Beside s' := by
  induction hrun generalizing s with
  | nil t => exact ⟨s, .nil s, h⟩
  | @cons t t₁ t' id ids hturn _ ih =>
    obtain ⟨hout, hnext⟩ := (h.call .mask).2.call (.accept id)
    simp only [Session.call, hturn.accepted, Option.some.injEq] at hout hnext
    obtain ⟨s', hrun, hbeside⟩ := ih hnext
    have hstep : s.Turn id (s.allowedMask.callAcceptToken id).1 :=
      ⟨h.allows hturn.allowed, Prod.ext rfl hout.symm⟩
    exact ⟨s', .cons hstep hrun, hbeside⟩

end Session

/-- **The levels nest as their order says.** Exactly the enforceable levels
have a session, and what can be emitted under a level can be emitted under
every level it guarantees. -/
theorem levels_nest (g : CompiledGrammar) (schema : Schema) :
    (∀ level : GuaranteeLevel, level.isEnforceable = (level.session g schema).isSome) ∧
    ∀ strong weak : GuaranteeLevel, strong.guarantees weak = true →
      strong.Emitted g schema ⊆ weak.Emitted g schema := by
  constructor
  · intro level
    cases level <;> rfl
  · intro strong weak hle
    have hnarrow : GuaranteeLevel.schemaConsistent.Emitted g schema ⊆
        GuaranteeLevel.syntactic.Emitted g schema := by
      rintro ids ⟨t, t', ht, hok⟩
      cases ht
      have hplain := Session.hasRead_build g none
      have hlinked := Session.hasRead_build g (some schema)
      refine ⟨_, _, rfl, (hplain.replay_iff_emits.mpr ?_).choose_spec⟩
      refine (hlinked.replay_iff_emits.mp ⟨t', hok⟩).mono
        (fun front id rest hsplit => by simp at hsplit) fun past _ id hid => ?_
      obtain ⟨t₁, hrun, hbit⟩ := hid
      obtain ⟨s₁, hrun', hbeside⟩ := (Session.Beside.build g (some schema)).replays hrun
      exact ⟨s₁, hrun', hbeside.allows hbit⟩
    have hnone : ∀ level : GuaranteeLevel, GuaranteeLevel.faithful.Emitted g schema ⊆ level.Emitted g schema := by
      rintro level ids ⟨t, t', ht, -⟩
      cases ht
    cases strong with
    | faithful => exact hnone weak
    | syntactic =>
      cases weak with
      | syntactic => exact subset_rfl
      | _ => cases hle
    | schemaConsistent =>
      cases weak with
      | syntactic => exact hnarrow
      | schemaConsistent => exact subset_rfl
      | faithful => cases hle

/-- The inclusion is strict: a phantom property is emitted without the
schema only. -/
example : ∃ g schema ids, ids ∈ GuaranteeLevel.syntactic.Emitted g schema ∧
    ids ∉ GuaranteeLevel.schemaConsistent.Emitted g schema := by
  let g := CompiledGrammar.compile ⟨[ascii "|A.all()->filter(x|$x.", ascii "zzz", ascii ")"], 3⟩
  refine ⟨g, .sample, [0, 1, 2], ?_, ?_⟩
  · have hok : ((Session.build g none).replayTokens [0, 1, 2] g.eosBit).isOk = true := by
      decide +kernel
    cases hrun : (Session.build g none).replayTokens [0, 1, 2] g.eosBit with
    | ok s' => exact ⟨_, s', rfl, hrun⟩
    | error e =>
      rw [hrun] at hok
      cases hok
  · rintro ⟨s, s', hs, hok⟩
    cases hs
    have herr : ((Session.build g (some .sample)).replayTokens [0, 1, 2] g.eosBit).isOk = false := by
      decide +kernel
    rw [hok] at herr
    cases herr

end PureCard
