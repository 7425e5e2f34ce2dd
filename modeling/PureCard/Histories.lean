/-
PureCard.Histories — what a mask may depend on.

Sessions over one grammar share its cache, and each carries a memo of
masks and two buffers that are never cleared. `Agree` compares only what a
stream is: the automaton, the offset, the schema and the scope tracker.
Sessions that agree answer alike and stay in agreement, whatever their
caches hold (`allows_congr`, `Agree.callAcceptToken`).

From that come two results about runs. `mask_history_independent`: in a
world of sessions that are opened, cloned, driven, refused, asked and
reset in any order, the mask a session returns is that of a brand-new
session fed the tokens it accepted since its last reset.
`overlay_only_narrows`: a session with a schema and one without, given the
same calls, give the same verdicts, and the first one's masks are
contained in the second one's, with the same EOS bit.
-/
import PureCard.Calls
import PureCard.SchemaMask

namespace PureCard

namespace Session

/-! ## Agreement -/

/-- The two sessions are at the same point of the same stream. -/
structure Agree (s f : Session) : Prop where
  pda : s.pda = f.pda
  offset : s.offset = f.offset
  vocab : s.grammar.vocab = f.grammar.vocab
  schema : s.schema = f.schema
  tracker : s.tracker = f.tracker

theorem Agree.refl (s : Session) : s.Agree s := ⟨rfl, rfl, rfl, rfl, rfl⟩

theorem Agree.legal {s f : Session} (h : s.Agree f) (bytes : Bytes) : s.legal bytes = f.legal bytes := by
  unfold Session.legal
  rw [h.schema, h.tracker, h.pda]

/-- **Agreeing sessions have the same mask**, whatever their caches and
buffers hold. -/
theorem Agree.allows {s f : Session} (h : s.Agree f) (hs : s.MemoValid) (hf : f.MemoValid)
    (id : Nat) : s.allows id = f.allows id := by
  have hiff : s.allows id = true ↔ f.allows id = true := by
    rw [allows_iff hs, allows_iff hf, h.legal, CompiledGrammar.eosBit, CompiledGrammar.eosBit,
      h.vocab, h.pda]
  exact Bool.eq_iff_iff.mpr hiff

/-- A token call on two sessions at the same automaton over the same
vocabulary: both refuse it for the same reason, or both commit it. -/
theorem acceptToken_cases {s f : Session} (hpda : s.pda = f.pda)
    (hvocab : s.grammar.vocab = f.grammar.vocab) (id : Nat) :
    (∃ e, s.acceptToken id = .error e ∧ f.acceptToken id = .error e) ∨
    (s.acceptToken id = .ok s ∧ f.acceptToken id = .ok f) ∨
    ∃ bytes p, s.pda.advanceAll bytes = .ok p ∧ s.acceptToken id = .ok (s.commit bytes p) ∧
      f.acceptToken id = .ok (f.commit bytes p) := by
  have heos : s.grammar.eosBit = f.grammar.eosBit := by
    rw [CompiledGrammar.eosBit, CompiledGrammar.eosBit, hvocab]
  unfold acceptToken
  rw [hpda, hvocab, heos]
  split
  · split
    · exact .inr (.inl ⟨rfl, rfl⟩)
    · exact .inl ⟨_, rfl, rfl⟩
  · split
    · exact .inl ⟨_, rfl, rfl⟩
    · split
      · exact .inr (.inr ⟨_, _, ‹_›, rfl, rfl⟩)
      · exact .inl ⟨_, rfl, rfl⟩

theorem Agree.commit {s f : Session} (h : s.Agree f) (bytes : Bytes) (p : Pda) :
    (s.commit bytes p).Agree (f.commit bytes p) := by
  refine ⟨rfl, congrArg (· + bytes.length) h.offset, h.vocab, h.schema, ?_⟩
  unfold Session.commit
  dsimp only
  rw [h.schema, h.tracker, h.pda]

/-- **Agreement survives a token call.** -/
theorem Agree.callAcceptToken {s f : Session} (h : s.Agree f) (id : Nat) :
    (s.callAcceptToken id).2 = (f.callAcceptToken id).2 ∧
      (s.callAcceptToken id).1.Agree (f.callAcceptToken id).1 := by
  rw [callAcceptToken_eq, callAcceptToken_eq]
  rcases acceptToken_cases h.pda h.vocab id with ⟨e, hs, hf⟩ | ⟨hs, hf⟩ | ⟨bytes, p, _, hs, hf⟩
  · rw [hs, hf]
    exact ⟨rfl, h⟩
  · rw [hs, hf]
    exact ⟨rfl, h⟩
  · rw [hs, hf]
    exact ⟨rfl, h.commit bytes p⟩

theorem MemoValid.callAcceptToken {s : Session} (h : s.MemoValid) (id : Nat) :
    (s.callAcceptToken id).1.MemoValid := by
  rw [callAcceptToken_eq]
  cases hs : s.acceptToken id with
  | ok s' => exact h.acceptToken hs
  | error e => exact h

theorem vocab_callAcceptToken (s : Session) (id : Nat) :
    (s.callAcceptToken id).1.grammar = s.grammar ∧
      (s.callAcceptToken id).1.schema = s.schema := by
  rw [callAcceptToken_eq]
  rcases acceptToken_cases (s := s) (f := s) rfl rfl id with ⟨e, hs, _⟩ | ⟨hs, _⟩ | ⟨bytes, p, _, hs, _⟩
  · rw [hs]
    exact ⟨rfl, rfl⟩
  · rw [hs]
    exact ⟨rfl, rfl⟩
  · rw [hs]
    exact ⟨rfl, rfl⟩

/-- The session with the shared grammar as the other sessions have left
it. -/
def withGrammar (s : Session) (g : CompiledGrammar) : Session :=
  if h : s.grammar.vocab = g.vocab then
    { s with
      grammar := g
      mask_len := by rw [s.mask_len, h]
      narrowBuf_len := by rw [s.narrowBuf_len, h] }
  else s

theorem withGrammar_agree {s : Session} {g : CompiledGrammar} (h : s.grammar.vocab = g.vocab) :
    (s.withGrammar g).Agree s := by
  unfold withGrammar
  rw [dif_pos h]
  exact ⟨rfl, rfl, h.symm, rfl, rfl⟩

theorem MemoValid.withGrammar {s : Session} (h : s.MemoValid) (g : CompiledGrammar) :
    (s.withGrammar g).MemoValid := by
  unfold Session.withGrammar
  split
  · rename_i hvocab
    intro schema hschema
    have hold := h schema hschema
    rw [hvocab] at hold
    exact hold
  · exact h

/-- Feed a run of token ids, all of which must be accepted. -/
def feedIds (s : Session) : List Nat → Option Session
  | [] => some s
  | id :: rest =>
    match s.callAcceptToken id with
    | (s, .ok ()) => s.feedIds rest
    | (_, .error _) => none

theorem feedIds_concat (s : Session) (ids : List Nat) (id : Nat) :
    s.feedIds (ids ++ [id]) = (s.feedIds ids).bind fun f =>
      match f.callAcceptToken id with
      | (f, .ok ()) => some f
      | (_, .error _) => none := by
  induction ids generalizing s with
  | nil =>
    rw [List.nil_append, feedIds, feedIds, Option.bind_some]
    rfl
  | cons i ids ih =>
    rw [List.cons_append, feedIds, feedIds]
    cases s.callAcceptToken i with
    | mk s' out =>
      cases out with
      | ok => exact ih s'
      | error e => rfl

end Session

/-! ## A world of sessions -/

/-- A session, and the ids it has accepted since its last reset. -/
structure Seat where
  session : Session
  accepted : List Nat

/-- The sessions over one grammar. -/
structure World where
  grammar : CompiledGrammar
  seats : List Seat

/-- What hosts do, in any order. -/
inductive Event where
  | spawn (schema : Option Schema)
  | clone (i : Nat)
  | accept (i : Nat) (id : Nat)
  | mask (i : Nat)
  | reset (i : Nat)

namespace World

/-- A freshly compiled grammar and no session. -/
def start (vocab : Vocab) : World := ⟨.compile vocab, []⟩

/-- The seat after a token call. -/
def acceptAt (g : CompiledGrammar) (seat : Seat) (id : Nat) : Seat :=
  match (seat.session.withGrammar g).callAcceptToken id with
  | (s, .ok ()) => ⟨s, seat.accepted ++ [id]⟩
  | (s, .error _) => ⟨s, seat.accepted⟩

def step (w : World) : Event → World
  | .spawn schema => { w with seats := w.seats ++ [⟨.build w.grammar schema, []⟩] }
  | .clone i =>
    match w.seats[i]? with
    | some seat => { w with seats := w.seats ++ [seat] }
    | none => w
  | .accept i id =>
    match w.seats[i]? with
    | some seat => { w with seats := w.seats.set i (acceptAt w.grammar seat id) }
    | none => w
  | .mask i =>
    match w.seats[i]? with
    | some seat =>
      let s := (seat.session.withGrammar w.grammar).allowedMask
      ⟨s.grammar, w.seats.set i ⟨s, seat.accepted⟩⟩
    | none => w
  | .reset i =>
    match w.seats[i]? with
    | some seat => { w with seats := w.seats.set i ⟨seat.session.reset, []⟩ }
    | none => w

end World

/-- The seat's session is where a brand-new session fed its accepted ids
would be, and its memo is right. -/
structure Seat.Good (vocab : Vocab) (seat : Seat) : Prop where
  grammar : seat.session.grammar.vocab = vocab
  memo : seat.session.MemoValid
  fresh : ∃ f, (Session.build (.compile vocab) seat.session.schema).feedIds seat.accepted = some f ∧
    f.MemoValid ∧ seat.session.Agree f

namespace Seat.Good

variable {vocab : Vocab} {seat : Seat}

theorem spawn {g : CompiledGrammar} (hg : g.vocab = vocab) (schema : Option Schema) :
    Seat.Good vocab ⟨.build g schema, []⟩ :=
  ⟨hg, Session.memoValid_build g schema, _, rfl, Session.memoValid_build _ schema,
    rfl, rfl, hg, rfl, rfl⟩

theorem accept (h : seat.Good vocab) {g : CompiledGrammar} (hg : g.vocab = vocab) (id : Nat) :
    (World.acceptAt g seat id).Good vocab := by
  obtain ⟨f, hfeed, hfmemo, hagree⟩ := h.fresh
  have hover := Session.withGrammar_agree (h.grammar.trans hg.symm)
  have hfull : (seat.session.withGrammar g).Agree f :=
    ⟨hover.pda.trans hagree.pda, hover.offset.trans hagree.offset, hover.vocab.trans hagree.vocab,
      hover.schema.trans hagree.schema, hover.tracker.trans hagree.tracker⟩
  have hcall := hfull.callAcceptToken id
  have hmemo := (h.memo.withGrammar g).callAcceptToken id
  have hframe := (seat.session.withGrammar g).vocab_callAcceptToken id
  have hvocab : ((seat.session.withGrammar g).callAcceptToken id).1.grammar.vocab = vocab := by
    rw [hframe.1, hover.vocab, h.grammar]
  have hschema : ((seat.session.withGrammar g).callAcceptToken id).1.schema = seat.session.schema :=
    hframe.2.trans hover.schema
  have hfmemo' := hfmemo.callAcceptToken id
  have hconcat := Session.feedIds_concat (.build (.compile vocab) seat.session.schema) seat.accepted id
  rw [hfeed, Option.bind_some] at hconcat
  unfold World.acceptAt
  cases hs : (seat.session.withGrammar g).callAcceptToken id with
  | mk s out =>
    cases hf : f.callAcceptToken id with
    | mk f' out' =>
      rw [hs, hf] at hcall
      rw [hs] at hmemo hvocab hschema
      rw [hf] at hconcat hfmemo'
      obtain ⟨hout, hagree'⟩ := hcall
      dsimp only at hout
      subst hout
      cases out with
      | ok =>
        refine ⟨hvocab, hmemo, f', ?_, hfmemo', hagree'⟩
        rw [show s.schema = seat.session.schema from hschema]
        exact hconcat
      | error e =>
        -- a refused call has changed neither session
        have hsame : f' = f := by
          rw [Session.callAcceptToken_eq] at hf
          cases hacc : f.acceptToken id with
          | ok _ =>
            rw [hacc] at hf
            cases hf
          | error _ =>
            rw [hacc] at hf
            cases hf
            rfl
        subst hsame
        refine ⟨hvocab, hmemo, f', ?_, hfmemo, hagree'⟩
        rw [show s.schema = seat.session.schema from hschema]
        exact hfeed

theorem mask (h : seat.Good vocab) {g : CompiledGrammar} (hg : g.vocab = vocab) :
    Seat.Good vocab ⟨(seat.session.withGrammar g).allowedMask, seat.accepted⟩ := by
  obtain ⟨f, hfeed, hfmemo, hagree⟩ := h.fresh
  have hover := Session.withGrammar_agree (h.grammar.trans hg.symm)
  have hvocab : (seat.session.withGrammar g).allowedMask.grammar.vocab = vocab := by
    have hcached : (seat.session.withGrammar g).allowedMask.grammar.vocab =
        (seat.session.withGrammar g).grammar.vocab := CompiledGrammar.vocab_cached ..
    rw [hcached, hover.vocab, h.grammar]
  have hschema : (seat.session.withGrammar g).allowedMask.schema = seat.session.schema := hover.schema
  refine ⟨hvocab, (h.memo.withGrammar g).allowedMask, f, by rw [hschema]; exact hfeed, hfmemo, ?_⟩
  exact ⟨hover.pda.trans hagree.pda, hover.offset.trans hagree.offset,
    hvocab.trans (h.grammar.symm.trans hagree.vocab), hover.schema.trans hagree.schema,
    hover.tracker.trans hagree.tracker⟩

theorem reset (h : seat.Good vocab) : Seat.Good vocab ⟨seat.session.reset, []⟩ :=
  ⟨h.grammar, h.memo.reset, _, rfl, Session.memoValid_build _ _, rfl, rfl, h.grammar, rfl, rfl⟩

end Seat.Good

/-- Every session of the world is in order. -/
structure World.Good (vocab : Vocab) (w : World) : Prop where
  grammar : w.grammar.vocab = vocab
  seats : ∀ seat ∈ w.seats, seat.Good vocab

theorem World.Good.start (vocab : Vocab) : (World.start vocab).Good vocab where
  grammar := rfl
  seats seat h := by simp [World.start] at h

/-- **One event keeps every session in order.** -/
theorem World.Good.step {vocab : Vocab} {w : World} (h : w.Good vocab) (e : Event) :
    (w.step e).Good vocab := by
  have hset : ∀ (i : Nat) (seat : Seat), seat.Good vocab → ∀ x ∈ w.seats.set i seat, x.Good vocab := by
    intro i seat hseat x hx
    rcases List.mem_or_eq_of_mem_set hx with hx | rfl
    · exact h.seats x hx
    · exact hseat
  have hconcat : ∀ seat : Seat, seat.Good vocab → ∀ x ∈ w.seats ++ [seat], x.Good vocab := by
    intro seat hseat x hx
    rcases List.mem_append.mp hx with hx | hx
    · exact h.seats x hx
    · rw [List.mem_singleton.mp hx]
      exact hseat
  have hat : ∀ {i : Nat} {seat : Seat}, w.seats[i]? = some seat → seat.Good vocab :=
    fun hi => h.seats _ (List.mem_of_getElem? hi)
  cases e with
  | spawn schema => exact ⟨h.grammar, hconcat _ (.spawn h.grammar schema)⟩
  | clone i =>
    rw [World.step]
    cases hi : w.seats[i]? with
    | none => exact h
    | some seat => exact ⟨h.grammar, hconcat _ (hat hi)⟩
  | accept i id =>
    rw [World.step]
    cases hi : w.seats[i]? with
    | none => exact h
    | some seat => exact ⟨h.grammar, hset i _ ((hat hi).accept h.grammar id)⟩
  | mask i =>
    rw [World.step]
    cases hi : w.seats[i]? with
    | none => exact h
    | some seat =>
      have hgood := (hat hi).mask h.grammar
      exact ⟨hgood.grammar, hset i _ hgood⟩
  | reset i =>
    rw [World.step]
    cases hi : w.seats[i]? with
    | none => exact h
    | some seat => exact ⟨h.grammar, hset i _ (hat hi).reset⟩

theorem World.Good.run {vocab : Vocab} {w : World} (h : w.Good vocab) (events : List Event) :
    (events.foldl World.step w).Good vocab := by
  induction events generalizing w with
  | nil => exact h
  | cons e events ih => exact ih (h.step e)

/-- **A mask has no history.** After any events on any number of sessions
over one grammar, the mask of each session is, bit for bit, the mask of a
brand-new session over a freshly compiled grammar that is fed the ids the
session has accepted since its last reset; and those are accepted. -/
theorem mask_history_independent (vocab : Vocab) (events : List Event) (seat : Seat)
    (hseat : seat ∈ (events.foldl World.step (World.start vocab)).seats) :
    ∃ f, (Session.build (.compile vocab) seat.session.schema).feedIds seat.accepted = some f ∧
      (seat.session.withGrammar (events.foldl World.step (World.start vocab)).grammar).allowedMask.mask.len =
        f.allowedMask.mask.len ∧
      ∀ id, (seat.session.withGrammar (events.foldl World.step (World.start vocab)).grammar).allows id =
        f.allows id := by
  have hgood := (World.Good.start vocab).run events
  generalize events.foldl World.step (World.start vocab) = w at hgood hseat
  have h := hgood.seats seat hseat
  obtain ⟨f, hfeed, hfmemo, hagree⟩ := h.fresh
  have hover := Session.withGrammar_agree (h.grammar.trans hgood.grammar.symm)
  have hfull : (seat.session.withGrammar w.grammar).Agree f :=
    ⟨hover.pda.trans hagree.pda, hover.offset.trans hagree.offset, hover.vocab.trans hagree.vocab,
      hover.schema.trans hagree.schema, hover.tracker.trans hagree.tracker⟩
  refine ⟨f, hfeed, ?_, fun id => hfull.allows (h.memo.withGrammar w.grammar) hfmemo id⟩
  have hlen : ∀ s : Session, s.allowedMask.mask.len = s.grammar.vocab.maskLen :=
    fun s => s.len_refill.1
  rw [hlen, hlen, hfull.vocab]

/-- Two sessions, one with a schema; the second is driven, asked, cloned and
reset while the first fills the shared cache. -/
def sampleEvents : List Event :=
  [.spawn none, .spawn (some Schema.sample), .accept 1 0, .mask 0, .clone 1, .mask 1, .reset 1]

theorem mask_history_independent_sample : ∃ seat ∈
    (sampleEvents.foldl World.step (World.start ⟨[ascii "|", ascii "A"], 2⟩)).seats, ∃ f,
      (Session.build (.compile ⟨[ascii "|", ascii "A"], 2⟩) seat.session.schema).feedIds
          seat.accepted = some f ∧
      (seat.session.withGrammar (sampleEvents.foldl World.step
        (World.start ⟨[ascii "|", ascii "A"], 2⟩)).grammar).allowedMask.mask.len =
          f.allowedMask.mask.len ∧
      ∀ id, (seat.session.withGrammar (sampleEvents.foldl World.step
        (World.start ⟨[ascii "|", ascii "A"], 2⟩)).grammar).allows id = f.allows id := by
  have hlen : (sampleEvents.foldl World.step
      (World.start ⟨[ascii "|", ascii "A"], 2⟩)).seats.length = 3 := by decide +kernel
  have hseat : (sampleEvents.foldl World.step (World.start ⟨[ascii "|", ascii "A"], 2⟩)).seats[2] ∈
      (sampleEvents.foldl World.step (World.start ⟨[ascii "|", ascii "A"], 2⟩)).seats :=
    List.getElem_mem _
  exact ⟨_, hseat, mask_history_independent _ sampleEvents _ hseat⟩

/-! ## With and without a schema -/

namespace Session

/-- The calls of one host, between which other sessions may fill the
shared cache. -/
inductive Call where
  | accept (id : Nat)
  | mask
  | reset
  | shared (state : State)

/-- A call, with the verdict of a token call. -/
def call (s : Session) : Call → Session × Option (Except DecodeError Unit)
  | .accept id => ((s.callAcceptToken id).1, some (s.callAcceptToken id).2)
  | .mask => (s.allowedMask, none)
  | .reset => (s.reset, none)
  | .shared state => (s.sharedFill state, none)

/-- A run of calls, with their verdicts. -/
def runCalls (s : Session) : List Call → Session × List (Option (Except DecodeError Unit))
  | [] => (s, [])
  | c :: rest =>
    let (s, out) := s.call c
    let (s, outs) := s.runCalls rest
    (s, out :: outs)

theorem vocab_call (s : Session) (c : Call) : (s.call c).1.grammar.vocab = s.grammar.vocab := by
  cases c with
  | accept id => exact congrArg CompiledGrammar.vocab (vocab_callAcceptToken s id).1
  | mask => exact CompiledGrammar.vocab_cached ..
  | reset => rfl
  | shared state => rfl

/-- The vocabulary stays what it was. -/
theorem vocab_runCalls (s : Session) (calls : List Call) :
    (s.runCalls calls).1.grammar.vocab = s.grammar.vocab := by
  induction calls generalizing s with
  | nil => rfl
  | cons c rest ih => exact (ih (s.call c).1).trans (s.vocab_call c)

/-- A session with a schema, next to one without at the same point. -/
structure Beside (t s : Session) : Prop where
  pda : t.pda = s.pda
  offset : t.offset = s.offset
  vocab : t.grammar.vocab = s.grammar.vocab
  syntactic : s.schema = none
  memo : t.MemoValid

theorem Beside.build (g : CompiledGrammar) (schema : Option Schema) :
    (Session.build g schema).Beside (Session.build g none) :=
  ⟨rfl, rfl, rfl, rfl, memoValid_build g schema⟩

/-- **One call keeps the two side by side** and gives both one verdict. -/
theorem Beside.call {t s : Session} (h : t.Beside s) (c : Call) :
    (t.call c).2 = (s.call c).2 ∧ (t.call c).1.Beside (s.call c).1 := by
  cases c with
  | accept id =>
    have hmemo := h.memo.callAcceptToken id
    rw [Session.call, Session.call]
    dsimp only
    rw [callAcceptToken_eq] at hmemo
    rw [callAcceptToken_eq, callAcceptToken_eq]
    rcases acceptToken_cases h.pda h.vocab id with ⟨e, ht, hs⟩ | ⟨ht, hs⟩ | ⟨bytes, p, _, ht, hs⟩
    · rw [ht, hs]
      exact ⟨rfl, h⟩
    · rw [ht, hs]
      exact ⟨rfl, h⟩
    · rw [ht] at hmemo
      rw [ht, hs]
      exact ⟨rfl, rfl, congrArg (· + bytes.length) h.offset, h.vocab, h.syntactic, hmemo⟩
  | mask =>
    have hvocab : t.allowedMask.grammar.vocab = s.allowedMask.grammar.vocab := by
      have ht : t.allowedMask.grammar.vocab = t.grammar.vocab := CompiledGrammar.vocab_cached ..
      have hs : s.allowedMask.grammar.vocab = s.grammar.vocab := CompiledGrammar.vocab_cached ..
      rw [ht, hs, h.vocab]
    exact ⟨rfl, h.pda, h.offset, hvocab, h.syntactic, h.memo.allowedMask⟩
  | reset => exact ⟨rfl, rfl, rfl, h.vocab, h.syntactic, h.memo.reset⟩
  | shared state => exact ⟨rfl, h.pda, h.offset, h.vocab, h.syntactic, h.memo⟩

theorem Beside.runCalls {t s : Session} (h : t.Beside s) (calls : List Call) :
    (t.runCalls calls).2 = (s.runCalls calls).2 ∧
      (t.runCalls calls).1.Beside (s.runCalls calls).1 := by
  induction calls generalizing t s with
  | nil => exact ⟨rfl, h⟩
  | cons c rest ih =>
    obtain ⟨hout, hnext⟩ := h.call c
    obtain ⟨houts, hrun⟩ := ih hnext
    simp only [Session.runCalls]
    exact ⟨by rw [hout, houts], hrun⟩

/-- A session without a schema allows what the one beside it allows. -/
theorem Beside.allows {t s : Session} (h : t.Beside s) {id : Nat} (hid : t.allows id = true) :
    s.allows id = true := by
  have hs := memoValid_of_none h.syntactic
  have hlegal : s.legal (s.grammar.vocab.bytesOrEmpty id) = true := by
    simp only [legal, h.syntactic]
  have heos : t.grammar.eosBit = s.grammar.eosBit := by
    rw [CompiledGrammar.eosBit, CompiledGrammar.eosBit, h.vocab]
  rw [allows_iff hs, hlegal]
  rw [allows_iff h.memo, h.vocab, h.pda, heos] at hid
  rcases hid with ⟨hlt, hadmits, _⟩ | hid
  · exact .inl ⟨hlt, hadmits, rfl⟩
  · exact .inr hid

/-- The EOS bit says whether the query is complete. -/
theorem allows_eosBit {s : Session} (h : s.MemoValid) :
    s.allows s.grammar.eosBit = s.isComplete := by
  have hiff := allows_iff h s.grammar.eosBit
  simp only [lt_irrefl, false_and, true_and, false_or] at hiff
  exact Bool.eq_iff_iff.mpr hiff

/-- **The schema only narrows.** Over any grammar and any run of calls, a
session with a schema and one without give the same verdicts, end at the
same automaton and offset and are complete alike; every bit of the first
one's mask is set in the second one's, and the EOS bits are equal. -/
theorem overlay_only_narrows (g : CompiledGrammar) (schema : Schema) (calls : List Call) :
    let t := (Session.build g (some schema)).runCalls calls
    let s := (Session.build g none).runCalls calls
    t.2 = s.2 ∧ t.1.pda = s.1.pda ∧ t.1.offset = s.1.offset ∧ t.1.isComplete = s.1.isComplete ∧
      (∀ id, t.1.allows id = true → s.1.allows id = true) ∧
      t.1.allows g.eosBit = s.1.allows g.eosBit := by
  obtain ⟨houts, h⟩ := (Beside.build g (some schema)).runCalls calls
  have ht := vocab_runCalls (Session.build g (some schema)) calls
  have hs := vocab_runCalls (Session.build g none) calls
  dsimp only
  generalize (Session.build g (some schema)).runCalls calls = t at houts h ht
  generalize (Session.build g none).runCalls calls = s at houts h hs
  have hcomplete : t.1.isComplete = s.1.isComplete := congrArg Pda.isAccepting h.pda
  have heost : t.1.grammar.eosBit = g.eosBit := congrArg Vocab.eosBit ht
  have heoss : s.1.grammar.eosBit = g.eosBit := congrArg Vocab.eosBit hs
  have hteos := allows_eosBit h.memo
  have hseos := allows_eosBit (memoValid_of_none h.syntactic)
  rw [heost] at hteos
  rw [heoss] at hseos
  exact ⟨houts, h.pda, h.offset, hcomplete, fun id => h.allows,
    hteos.trans (hcomplete.trans hseos.symm)⟩

end Session

end PureCard
