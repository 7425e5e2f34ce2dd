/-
PureCard.SelfCheck — the tokenizer self-check (`src/selfcheck.rs`).

The check drives each sample through a fresh session without a schema: at
every offset it takes the longest token that begins the rest, asks the
mask for it, commits it, and at the end asks for completeness.

* `longestMatch_eq_some` and `longestMatch_eq_none` say what the scan of
  the vocabulary finds, the lowest id among the longest tokens.
* `Greedy` is a run of such tokens read against the bytes that follow it,
  and `checkLoop_greedy` carries the loop over one that stays live. From
  any offset a live run can be pushed until the bytes are used up, no token
  begins the rest, or the next token dies (`greedy_ends`): the verdicts.
* `selfCheck_exact` puts them together over a list of samples.
* `Cut` is a token of some spelling that the longest tokens end inside of.
  A covered sample stalls nowhere else (`Covers.cut`), and what stands
  behind the token can be dropped (`Cut.truncate`): whether the check can
  report a query that tokens spell is a matter of the cuts of the
  vocabulary alone (`unsegmentable_iff`).

A vocabulary has the tokens the crate can name, those with an id in
`0..vocab.len() as u32`.
-/
import PureCard.Histories

namespace PureCard

open Pushdown

/-! ## The longest match -/

/-- One token against the best so far. -/
def matchStep (vocab : Vocab) (remaining : Bytes) (best : Option (Nat × Nat)) (id : Nat) :
    Option (Nat × Nat) :=
  let token := vocab.bytesOrEmpty id
  if token ≠ [] ∧ token <+: remaining ∧ best.all (fun b => decide (b.2 < token.length)) = true then
    some (id, token.length)
  else best

/-- The id of the longest token that is a non-empty prefix of `remaining`. -/
def longestMatch (vocab : Vocab) (remaining : Bytes) : Option Nat :=
  ((List.range vocab.eosBit).foldl (matchStep vocab remaining) none).map Prod.fst

/-- Token `id`, spelled `t`, begins the text, and none that does is longer,
or as long with a lower id. -/
structure Vocab.Longest (vocab : Vocab) (text : Bytes) (id : Nat) (t : Bytes) : Prop where
  lt : id < vocab.eosBit
  bytes : vocab.bytes id = some t
  nonempty : t ≠ []
  isPrefix : t <+: text
  longest : ∀ id' < vocab.eosBit, ∀ t', vocab.bytes id' = some t' → t' <+: text →
    t'.length < t.length ∨ (t'.length = t.length ∧ id ≤ id')

/-- No token begins the text. -/
def Vocab.Stuck (vocab : Vocab) (text : Bytes) : Prop :=
  ∀ t, vocab.Has t → t ≠ [] → ¬ t <+: text

/-- What the scan knows once it has gone through the ids below `n`. -/
def MatchedBelow (vocab : Vocab) (text : Bytes) (n : Nat) : Option (Nat × Nat) → Prop
  | none => ∀ id < n, vocab.bytesOrEmpty id ≠ [] → ¬ vocab.bytesOrEmpty id <+: text
  | some (id, len) => id < n ∧ vocab.bytesOrEmpty id ≠ [] ∧ vocab.bytesOrEmpty id <+: text ∧
      len = (vocab.bytesOrEmpty id).length ∧
      ∀ id' < n, vocab.bytesOrEmpty id' <+: text →
        (vocab.bytesOrEmpty id').length < len ∨
          ((vocab.bytesOrEmpty id').length = len ∧ id ≤ id')

theorem matchedBelow_range (vocab : Vocab) (text : Bytes) (n : Nat) :
    MatchedBelow vocab text n ((List.range n).foldl (matchStep vocab text) none) := by
  induction n with
  | zero =>
    intro id hid
    omega
  | succ n ih =>
    rw [List.range_succ, List.foldl_append]
    show MatchedBelow vocab text (n + 1) (matchStep vocab text _ n)
    generalize (List.range n).foldl (matchStep vocab text) none = best at ih
    unfold matchStep
    by_cases hnew : vocab.bytesOrEmpty n ≠ [] ∧ vocab.bytesOrEmpty n <+: text ∧
        best.all (fun b => decide (b.2 < (vocab.bytesOrEmpty n).length)) = true
    · simp only [if_pos hnew]
      obtain ⟨hne, hpre, hall⟩ := hnew
      refine ⟨Nat.lt_succ_self n, hne, hpre, rfl, ?_⟩
      intro id' hid' hpre'
      rcases Nat.lt_succ_iff_lt_or_eq.mp hid' with hlt | rfl
      · left
        cases best with
        | none =>
          by_cases hempty : vocab.bytesOrEmpty id' = []
          · rw [hempty]
            exact List.length_pos_of_ne_nil hne
          · exact absurd hpre' (ih id' hlt hempty)
        | some b =>
          obtain ⟨id, len⟩ := b
          have hlen : len < (vocab.bytesOrEmpty n).length := by simpa using hall
          rcases ih.2.2.2.2 id' hlt hpre' with hshort | ⟨heq, -⟩
          · omega
          · omega
      · exact .inr ⟨rfl, Nat.le_refl _⟩
    · simp only [if_neg hnew]
      cases best with
      | none =>
        intro id hid hne hpre
        rcases Nat.lt_succ_iff_lt_or_eq.mp hid with hlt | rfl
        · exact ih id hlt hne hpre
        · exact hnew ⟨hne, hpre, rfl⟩
      | some b =>
        obtain ⟨id, len⟩ := b
        obtain ⟨hid, hne, hpre, hlen, hbest⟩ := ih
        refine ⟨Nat.lt_succ_of_lt hid, hne, hpre, hlen, ?_⟩
        intro id' hid' hpre'
        rcases Nat.lt_succ_iff_lt_or_eq.mp hid' with hlt | rfl
        · exact hbest id' hlt hpre'
        · have hpos : 0 < len := by
            rw [hlen]
            exact List.length_pos_of_ne_nil hne
          by_cases hempty : vocab.bytesOrEmpty id' = []
          · rw [hempty]
            exact .inl hpos
          · have hshort : ¬ len < (vocab.bytesOrEmpty id').length := by
              intro hlong
              exact hnew ⟨hempty, hpre', by simpa using hlong⟩
            omega

theorem Vocab.has_iff {vocab : Vocab} {t : Bytes} :
    vocab.Has t ↔ ∃ id < vocab.eosBit, vocab.bytesOrEmpty id = t := by
  constructor
  · rintro ⟨id, hid, hb⟩
    exact ⟨id, hid, by rw [Vocab.bytesOrEmpty, hb]; rfl⟩
  · rintro ⟨id, hid, rfl⟩
    exact ⟨id, hid, Vocab.bytes_of_lt hid⟩

theorem longestMatch_eq_none {vocab : Vocab} {text : Bytes} :
    longestMatch vocab text = none ↔ vocab.Stuck text := by
  have hspec := matchedBelow_range vocab text vocab.eosBit
  rw [longestMatch, Option.map_eq_none_iff]
  constructor
  · intro hnone t ht hne hpre
    rw [hnone] at hspec
    obtain ⟨id, hid, rfl⟩ := Vocab.has_iff.mp ht
    exact hspec id hid hne hpre
  · intro hstuck
    cases hbest : (List.range vocab.eosBit).foldl (matchStep vocab text) none with
    | none => rfl
    | some b =>
      rw [hbest] at hspec
      obtain ⟨hid, hne, hpre, -⟩ := hspec
      exact absurd hpre (hstuck _ (Vocab.has_iff.mpr ⟨b.1, hid, rfl⟩) hne)

theorem longestMatch_longest {vocab : Vocab} {text : Bytes} {id : Nat}
    (h : longestMatch vocab text = some id) :
    vocab.Longest text id (vocab.bytesOrEmpty id) := by
  have hspec := matchedBelow_range vocab text vocab.eosBit
  obtain ⟨⟨id', len⟩, hbest, rfl⟩ := Option.map_eq_some_iff.mp h
  rw [hbest] at hspec
  obtain ⟨hid, hne, hpre, rfl, hall⟩ := hspec
  refine ⟨hid, Vocab.bytes_of_lt hid, hne, hpre, ?_⟩
  intro id'' hid'' t' ht' hpre'
  have ht'' : vocab.bytesOrEmpty id'' = t' := by rw [Vocab.bytesOrEmpty, ht']; rfl
  rw [← ht''] at hpre' ⊢
  exact hall id'' hid'' hpre'

theorem Vocab.Longest.unique {vocab : Vocab} {text : Bytes} {id id' : Nat} {t t' : Bytes}
    (h : vocab.Longest text id t) (h' : vocab.Longest text id' t') : id = id' := by
  rcases h.longest id' h'.lt t' h'.bytes h'.isPrefix with hlt | ⟨heq, hle⟩
  · rcases h'.longest id h.lt t h.bytes h.isPrefix with hlt' | ⟨heq', -⟩
    · omega
    · omega
  · rcases h'.longest id h.lt t h.bytes h.isPrefix with hlt' | ⟨-, hle'⟩
    · omega
    · omega

theorem longestMatch_eq_some {vocab : Vocab} {text : Bytes} {id : Nat} :
    longestMatch vocab text = some id ↔ ∃ t, vocab.Longest text id t := by
  constructor
  · intro h
    exact ⟨_, longestMatch_longest h⟩
  · rintro ⟨t, ht⟩
    cases hmatch : longestMatch vocab text with
    | none =>
      have hstuck := longestMatch_eq_none.mp hmatch
      exact absurd ht.isPrefix (hstuck t ⟨id, ht.lt, ht.bytes⟩ ht.nonempty)
    | some id' => rw [(longestMatch_longest hmatch).unique ht]

/-! ## The check -/

/-- Why the vocabulary was found unable to express a sample. -/
inductive SelfCheckError where
  | unsegmentable (queryIndex pos : Nat)
  | deadEnd (queryIndex pos id : Nat)
  | incomplete (queryIndex consumed : Nat)
  deriving DecidableEq, Repr

/-- What is left after a longest match is shorter. -/
theorem length_sub_longestMatch {vocab : Vocab} {rest : Bytes} {id : Nat}
    (h : longestMatch vocab rest = some id) :
    rest.length - (vocab.bytesOrEmpty id).length < rest.length := by
  have hlong := longestMatch_longest h
  have hpos := List.length_pos_of_ne_nil hlong.nonempty
  have hle := hlong.isPrefix.length_le
  omega

/-- The loop over the rest of one sample: the session and the bytes
consumed at its end. -/
def checkLoop (vocab : Vocab) (queryIndex : Nat) (session : Session) (consumed : Nat)
    (rest : Bytes) : Except SelfCheckError (Session × Nat) :=
  if rest = [] then .ok (session, consumed)
  else
    match hid : longestMatch vocab rest with
    | none => .error (.unsegmentable queryIndex consumed)
    | some id =>
      let session := session.allowedMask
      if session.mask.test id = false then .error (.deadEnd queryIndex consumed id)
      else
        match session.acceptToken id with
        | .error _ => .error (.deadEnd queryIndex consumed id)
        | .ok session =>
          let n := (vocab.bytesOrEmpty id).length
          have := length_sub_longestMatch hid
          checkLoop vocab queryIndex session (consumed + n) (rest.drop n)
termination_by rest.length

/-- One sample through a fresh session; the grammar keeps what the session
filled. -/
def checkSample (grammar : CompiledGrammar) (queryIndex : Nat) (query : Bytes) :
    Except SelfCheckError CompiledGrammar :=
  match checkLoop grammar.vocab queryIndex (.build grammar none) 0 query with
  | .error e => .error e
  | .ok (session, consumed) =>
    if session.isComplete then .ok session.grammar
    else .error (.incomplete queryIndex consumed)

def checkSamples (grammar : CompiledGrammar) (queryIndex : Nat) :
    List Bytes → Except SelfCheckError Unit
  | [] => .ok ()
  | query :: samples =>
    match checkSample grammar queryIndex query with
    | .error e => .error e
    | .ok grammar => checkSamples grammar (queryIndex + 1) samples

/-- `self_check`. -/
def selfCheck (grammar : CompiledGrammar) (samples : List Bytes) : Except SelfCheckError Unit :=
  checkSamples grammar 0 samples

/-! ## One token of the loop -/

/-- A session of the check: no schema, over the vocabulary. -/
structure Checking (vocab : Vocab) (s : Session) : Prop where
  schema : s.schema = none
  vocab : s.grammar.vocab = vocab

theorem Checking.build {vocab : Vocab} {g : CompiledGrammar} (h : g.vocab = vocab) :
    Checking vocab (.build g none) := ⟨rfl, h⟩

theorem Checking.allowedMask {vocab : Vocab} {s : Session} (h : Checking vocab s) :
    Checking vocab s.allowedMask :=
  ⟨h.schema, (CompiledGrammar.vocab_cached _ _).trans h.vocab⟩

theorem Checking.commit {vocab : Vocab} {s : Session} (h : Checking vocab s) (t : Bytes)
    (p : Pda) : Checking vocab (s.commit t p) := ⟨h.schema, h.vocab⟩

/-- A token below the EOS id is folded through the automaton. -/
theorem Checking.acceptToken {vocab : Vocab} {s : Session} (h : Checking vocab s) {id : Nat}
    {t : Bytes} (hid : id < vocab.eosBit) (ht : vocab.bytes id = some t) {p : Pda}
    (hp : s.pda.advanceAll t = .ok p) : s.acceptToken id = .ok (s.commit t p) := by
  have hne : id ≠ s.grammar.eosBit := by
    rw [CompiledGrammar.eosBit, h.vocab]
    omega
  rw [Session.acceptToken, if_neg hne, h.vocab, ht]
  simp only [hp]

/-- Its bit is set when that fold does not die. -/
theorem Checking.test_mask {vocab : Vocab} {s : Session} (h : Checking vocab s) {id : Nat}
    {t : Bytes} (hid : id < vocab.eosBit) (ht : vocab.bytes id = some t) :
    s.allowedMask.mask.test id = true ↔ ∃ p, s.pda.advanceAll t = .ok p := by
  have hiff := Session.allows_iff_of_schema_none s h.schema id
  rw [CompiledGrammar.eosBit, h.vocab, ht] at hiff
  refine hiff.trans ?_
  constructor
  · rintro (⟨bytes, p, -, hbytes, hp⟩ | ⟨heos, -⟩)
    · rw [Option.some.inj hbytes]
      exact ⟨p, hp⟩
    · omega
  · rintro ⟨p, hp⟩
    exact .inl ⟨t, p, hid, rfl, hp⟩

/-- A set bit is a promise the fold keeps. -/
theorem Checking.accepts {vocab : Vocab} {s : Session} (h : Checking vocab s) {id : Nat}
    (hid : id < vocab.eosBit) (hbit : s.allowedMask.mask.test id = true) :
    ∃ s', s.allowedMask.acceptToken id = .ok s' ∧ Checking vocab s' := by
  have ht := Vocab.bytes_of_lt hid
  obtain ⟨p, hp⟩ := (h.test_mask hid ht).mp hbit
  exact ⟨_, h.allowedMask.acceptToken hid ht hp, h.allowedMask.commit _ p⟩

theorem checkLoop_nil (vocab : Vocab) (k : Nat) (s : Session) (n : Nat) :
    checkLoop vocab k s n [] = .ok (s, n) := by
  rw [checkLoop, if_pos rfl]

theorem checkLoop_stuck {vocab : Vocab} {rest : Bytes} (hne : rest ≠ [])
    (hstuck : vocab.Stuck rest) (k : Nat) (s : Session) (n : Nat) :
    checkLoop vocab k s n rest = .error (.unsegmentable k n) := by
  have hnone := longestMatch_eq_none.mpr hstuck
  rw [checkLoop, if_neg hne]
  split
  · rfl
  · rename_i id hid
    rw [hnone] at hid
    cases hid

/-- The loop at a rest whose longest match lives. -/
theorem checkLoop_live {vocab : Vocab} {s : Session} (hs : Checking vocab s) {rest : Bytes}
    {id : Nat} {t : Bytes} (ht : vocab.Longest (t ++ rest) id t) {p : Pda}
    (hp : s.pda.advanceAll t = .ok p) (k n : Nat) :
    checkLoop vocab k s n (t ++ rest) =
      checkLoop vocab k (s.allowedMask.commit t p) (n + t.length) rest := by
  have hne : t ++ rest ≠ [] := by simp [ht.nonempty]
  have hmatch : longestMatch vocab (t ++ rest) = some id := longestMatch_eq_some.mpr ⟨t, ht⟩
  have hbytes : vocab.bytesOrEmpty id = t := by rw [Vocab.bytesOrEmpty, ht.bytes]; rfl
  have hbit : s.allowedMask.mask.test id = true := (hs.test_mask ht.lt ht.bytes).mpr ⟨p, hp⟩
  have haccept : s.allowedMask.acceptToken id = .ok (s.allowedMask.commit t p) :=
    hs.allowedMask.acceptToken ht.lt ht.bytes hp
  rw [checkLoop, if_neg hne]
  split
  · rename_i hnone
    rw [hmatch] at hnone
    cases hnone
  · rename_i id' hid'
    rw [hmatch, Option.some.injEq] at hid'
    subst hid'
    simp only [hbit, Bool.true_eq_false, if_false, haccept, hbytes, List.drop_left]

/-- The loop at a rest whose longest match dies. -/
theorem checkLoop_dead {vocab : Vocab} {s : Session} (hs : Checking vocab s) {rest : Bytes}
    {id : Nat} {t : Bytes} (ht : vocab.Longest rest id t) {dead : DeadState}
    (hp : s.pda.advanceAll t = .error dead) (k n : Nat) :
    checkLoop vocab k s n rest = .error (.deadEnd k n id) := by
  have hne : rest ≠ [] := by
    intro hnil
    rw [hnil] at ht
    exact ht.nonempty (List.prefix_nil.mp ht.isPrefix)
  have hmatch : longestMatch vocab rest = some id := longestMatch_eq_some.mpr ⟨t, ht⟩
  have hbit : s.allowedMask.mask.test id = false := by
    rw [← Bool.not_eq_true, hs.test_mask ht.lt ht.bytes]
    rintro ⟨p, hlive⟩
    rw [hp] at hlive
    cases hlive
  rw [checkLoop, if_neg hne]
  split
  · rename_i hnone
    rw [hmatch] at hnone
    cases hnone
  · rename_i id' hid'
    rw [hmatch, Option.some.injEq] at hid'
    subst hid'
    simp only [hbit, if_true]

/-! ## Greedy runs -/

/-- `ids` are the longest matches that spell `front` before `rest`. -/
inductive Vocab.Greedy (vocab : Vocab) : List Nat → Bytes → Bytes → Prop where
  | nil {rest : Bytes} : Greedy vocab [] [] rest
  | cons {id : Nat} {ids : List Nat} {t front rest : Bytes}
      (ht : vocab.Longest (t ++ (front ++ rest)) id t) (hrest : Greedy vocab ids front rest) :
      Greedy vocab (id :: ids) (t ++ front) rest

/-- The loop goes through a greedy run that stays live. -/
theorem checkLoop_greedy {vocab : Vocab} {ids : List Nat} {front rest : Bytes}
    (h : vocab.Greedy ids front rest) (k : Nat) :
    ∀ {s : Session} {p : Pda} (n : Nat), Checking vocab s → s.pda.advanceAll front = .ok p →
      ∃ s', Checking vocab s' ∧ s'.pda = p ∧
        checkLoop vocab k s n (front ++ rest) =
          checkLoop vocab k s' (n + front.length) rest := by
  induction h with
  | nil =>
    intro s p n hs hp
    exact ⟨s, hs, Except.ok.inj hp, rfl⟩
  | @cons id ids t front rest ht hrest ih =>
    intro s p n hs hp
    obtain ⟨q, hq, hp⟩ := Pda.advanceAll_append.mp hp
    obtain ⟨s', hs', hpda, hloop⟩ := ih (n + t.length) (hs.allowedMask.commit t q) hp
    refine ⟨s', hs', hpda, ?_⟩
    rw [List.append_assoc, checkLoop_live hs ht hq, List.length_append, ← Nat.add_assoc]
    exact hloop

/-- How a live greedy run ends: at the end of the text, at a rest no token
begins, or at a token that dies. -/
theorem greedy_ends (vocab : Vocab) : ∀ (text : Bytes) (p : Pda), ∃ ids front rest q,
    text = front ++ rest ∧ vocab.Greedy ids front rest ∧ p.advanceAll front = .ok q ∧
      (rest = [] ∨ (rest ≠ [] ∧ vocab.Stuck rest) ∨
        ∃ id t dead, vocab.Longest rest id t ∧ q.advanceAll t = .error dead) := by
  intro text
  induction hn : text.length using Nat.strongRecOn generalizing text with
  | _ n ih =>
    intro p
    by_cases hnil : text = []
    · exact ⟨[], [], text, p, rfl, .nil, rfl, .inl hnil⟩
    · cases hmatch : longestMatch vocab text with
      | none =>
        exact ⟨[], [], text, p, rfl, .nil, rfl, .inr (.inl ⟨hnil, longestMatch_eq_none.mp hmatch⟩)⟩
      | some id =>
        have hlong := longestMatch_longest hmatch
        obtain ⟨rest, hrest⟩ := hlong.isPrefix
        cases hp : p.advanceAll (vocab.bytesOrEmpty id) with
        | error dead =>
          exact ⟨[], [], text, p, rfl, .nil, rfl, .inr (.inr ⟨id, _, dead, hlong, hp⟩)⟩
        | ok q =>
          have hpos := List.length_pos_of_ne_nil hlong.nonempty
          have hlen : rest.length < n := by
            rw [← hn, ← hrest, List.length_append]
            omega
          obtain ⟨ids, front, rest', q', rfl, hgreedy, hq', hend⟩ := ih _ hlen rest rfl q
          rw [← hrest] at hlong
          refine ⟨id :: ids, vocab.bytesOrEmpty id ++ front, rest', q', ?_, .cons hlong hgreedy,
            Pda.advanceAll_append.mpr ⟨q, hp, hq'⟩, hend⟩
          rw [List.append_assoc, hrest]

/-! ## The verdicts -/

/-- A text that dies does so at one byte of it. -/
theorem Pda.advanceAll_error {p : Pda} {t : Bytes} {dead : DeadState}
    (h : p.advanceAll t = .error dead) :
    ∃ a b c q, t = a ++ b :: c ∧ p.advanceAll a = .ok q ∧ q.advance b = .error dead := by
  induction t generalizing p with
  | nil => cases h
  | cons b t ih =>
    rw [advanceAll] at h
    cases hb : p.advance b with
    | error dead' =>
      rw [hb] at h
      cases h
      exact ⟨[], b, t, p, rfl, rfl, hb⟩
    | ok q =>
      rw [hb] at h
      obtain ⟨a, b', c, q', rfl, ha, hb'⟩ := ih h
      refine ⟨b :: a, b', c, q', rfl, ?_, hb'⟩
      rw [advanceAll, hb]
      exact ha

theorem Pda.advanceAll_of_dead {p q : Pda} {a c : Bytes} {b : UInt8} {dead : DeadState}
    (ha : p.advanceAll a = .ok q) (hb : q.advance b = .error dead) :
    p.advanceAll (a ++ b :: c) = .error dead := by
  induction a generalizing p with
  | nil =>
    cases ha
    rw [List.nil_append, advanceAll, hb]
  | cons x a ih =>
    rw [advanceAll] at ha
    rw [List.cons_append, advanceAll]
    cases hx : p.advance x with
    | error dead' =>
      rw [hx] at ha
      cases ha
    | ok r =>
      rw [hx] at ha
      exact ih ha

/-- The longest matches spell the sample, and the automaton takes it to an
accepting end. -/
def Vocab.Passes (vocab : Vocab) (query : Bytes) : Prop :=
  ∃ ids p, vocab.Greedy ids query [] ∧ Pda.new.advanceAll query = .ok p ∧ p.isAccepting = true

/-- The error a sample of index `k` is reported with. -/
inductive Vocab.Fails (vocab : Vocab) (query : Bytes) (k : Nat) : SelfCheckError → Prop where
  | unsegmentable {ids : List Nat} {front rest : Bytes} {p : Pda} (hquery : query = front ++ rest)
      (hgreedy : vocab.Greedy ids front rest) (hlive : Pda.new.advanceAll front = .ok p)
      (hrest : rest ≠ []) (hstuck : vocab.Stuck rest) :
      Fails vocab query k (.unsegmentable k front.length)
  | deadEnd {ids : List Nat} {front rest t a c : Bytes} {b : UInt8} {id : Nat} {p : Pda}
      {dead : DeadState} (hquery : query = front ++ rest) (hgreedy : vocab.Greedy ids front rest)
      (hlong : vocab.Longest rest id t) (ht : t = a ++ b :: c)
      (hlive : Pda.new.advanceAll (front ++ a) = .ok p) (hdead : p.advance b = .error dead) :
      Fails vocab query k (.deadEnd k front.length id)
  | incomplete {ids : List Nat} {p : Pda} (hgreedy : vocab.Greedy ids query [])
      (hlive : Pda.new.advanceAll query = .ok p) (hopen : p.isAccepting = false) :
      Fails vocab query k (.incomplete k query.length)

section Sample

variable {g : CompiledGrammar} {query : Bytes}

/-- A sample whose longest matches go through leaves the loop at its end. -/
theorem checkLoop_through {ids : List Nat} {p : Pda} (hgreedy : g.vocab.Greedy ids query [])
    (hlive : Pda.new.advanceAll query = .ok p) (k : Nat) :
    ∃ s, Checking g.vocab s ∧ s.pda = p ∧
      checkLoop g.vocab k (.build g none) 0 query = .ok (s, query.length) := by
  have hstart : (Session.build g none).pda.advanceAll query = .ok p := hlive
  obtain ⟨s, hs, hpda, hloop⟩ := checkLoop_greedy hgreedy k 0 (.build rfl) hstart
  rw [List.append_nil, checkLoop_nil, Nat.zero_add] at hloop
  exact ⟨s, hs, hpda, hloop⟩

theorem checkSample_passes (h : g.vocab.Passes query) (k : Nat) :
    ∃ g', checkSample g k query = .ok g' ∧ g'.vocab = g.vocab := by
  obtain ⟨ids, p, hgreedy, hlive, haccept⟩ := h
  obtain ⟨s, hs, hpda, hloop⟩ := checkLoop_through hgreedy hlive k
  have hcomplete : s.isComplete = true := by rwa [Session.isComplete, hpda]
  refine ⟨s.grammar, ?_, hs.vocab⟩
  rw [checkSample, hloop]
  exact if_pos hcomplete

theorem checkSample_fails {e : SelfCheckError} {k : Nat} (h : g.vocab.Fails query k e) :
    checkSample g k query = .error e := by
  cases h with
  | @unsegmentable ids front rest p hquery hgreedy hlive hrest hstuck =>
    have hstart : (Session.build g none).pda.advanceAll front = .ok p := hlive
    obtain ⟨s, -, -, hloop⟩ := checkLoop_greedy hgreedy k 0 (.build rfl) hstart
    rw [← hquery, checkLoop_stuck hrest hstuck, Nat.zero_add] at hloop
    rw [checkSample, hloop]
  | @deadEnd ids front rest t a c b id p dead hquery hgreedy hlong ht hlive hdead =>
    obtain ⟨q, hfront, ha⟩ := Pda.advanceAll_append.mp hlive
    have hstart : (Session.build g none).pda.advanceAll front = .ok q := hfront
    obtain ⟨s, hs, hpda, hloop⟩ := checkLoop_greedy hgreedy k 0 (.build rfl) hstart
    have hdie : s.pda.advanceAll t = .error dead := by
      rw [hpda, ht]
      exact Pda.advanceAll_of_dead ha hdead
    rw [← hquery, checkLoop_dead hs hlong hdie, Nat.zero_add] at hloop
    rw [checkSample, hloop]
  | @incomplete ids p hgreedy hlive hopen =>
    obtain ⟨s, -, hpda, hloop⟩ := checkLoop_through hgreedy hlive k
    have hincomplete : s.isComplete = false := by rwa [Session.isComplete, hpda]
    rw [checkSample, hloop]
    simp only [hincomplete, Bool.false_eq_true, if_false]

theorem passes_or_fails (vocab : Vocab) (query : Bytes) (k : Nat) :
    vocab.Passes query ∨ ∃ e, vocab.Fails query k e := by
  obtain ⟨ids, front, rest, p, hquery, hgreedy, hlive, hend⟩ := greedy_ends vocab query .new
  rcases hend with rfl | ⟨hne, hstuck⟩ | ⟨id, t, dead, hlong, hdie⟩
  · rw [List.append_nil] at hquery
    subst hquery
    cases haccept : p.isAccepting with
    | true => exact .inl ⟨ids, p, hgreedy, hlive, haccept⟩
    | false => exact .inr ⟨_, .incomplete hgreedy hlive haccept⟩
  · exact .inr ⟨_, .unsegmentable hquery hgreedy hlive hne hstuck⟩
  · obtain ⟨a, b, c, q, ht, ha, hb⟩ := Pda.advanceAll_error hdie
    exact .inr ⟨_, .deadEnd hquery hgreedy hlong ht (Pda.advanceAll_append.mpr ⟨p, hlive, ha⟩) hb⟩

end Sample

theorem checkSamples_ok_iff (samples : List Bytes) : ∀ (g : CompiledGrammar) (k : Nat),
    checkSamples g k samples = .ok () ↔ ∀ query ∈ samples, g.vocab.Passes query := by
  induction samples with
  | nil =>
    intro g k
    simp [checkSamples]
  | cons query samples ih =>
    intro g k
    rw [checkSamples, List.forall_mem_cons]
    rcases passes_or_fails g.vocab query k with hpass | ⟨e, hfail⟩
    · obtain ⟨g', hg', hvocab⟩ := checkSample_passes hpass k
      rw [hg']
      simp only [ih, hvocab, hpass, true_and]
    · have herror := checkSample_fails hfail
      rw [herror]
      simp only [false_iff, not_and, reduceCtorEq]
      intro hpass
      obtain ⟨g', hg', -⟩ := checkSample_passes hpass k
      rw [hg'] at herror
      cases herror

theorem checkSamples_error_iff (samples : List Bytes) : ∀ (g : CompiledGrammar) (k : Nat)
    (e : SelfCheckError), checkSamples g k samples = .error e ↔
      ∃ before query after, samples = before ++ query :: after ∧
        (∀ query' ∈ before, g.vocab.Passes query') ∧
          g.vocab.Fails query (k + before.length) e := by
  induction samples with
  | nil =>
    intro g k e
    simp [checkSamples]
  | cons query samples ih =>
    intro g k e
    rw [checkSamples]
    rcases passes_or_fails g.vocab query k with hpass | ⟨e', hfail⟩
    · obtain ⟨g', hg', hvocab⟩ := checkSample_passes hpass k
      rw [hg']
      simp only [ih, hvocab]
      constructor
      · rintro ⟨before, query', after, rfl, hbefore, hfail⟩
        refine ⟨query :: before, query', after, rfl, List.forall_mem_cons.mpr ⟨hpass, hbefore⟩, ?_⟩
        rwa [List.length_cons, Nat.add_comm before.length, ← Nat.add_assoc]
      · rintro ⟨before, query', after, hsplit, hbefore, hfail⟩
        cases before with
        | nil =>
          obtain ⟨rfl, rfl⟩ := List.cons.inj hsplit
          have herror := checkSample_fails hfail
          rw [List.length_nil, Nat.add_zero, hg'] at herror
          cases herror
        | cons query'' before =>
          obtain ⟨rfl, rfl⟩ := List.cons.inj hsplit
          refine ⟨before, query', after, rfl, (List.forall_mem_cons.mp hbefore).2, ?_⟩
          rwa [List.length_cons, Nat.add_comm before.length, ← Nat.add_assoc] at hfail
    · have herror := checkSample_fails hfail
      rw [herror]
      constructor
      · intro he
        cases he
        exact ⟨[], query, samples, rfl, by simp, hfail⟩
      · rintro ⟨before, query', after, hsplit, hbefore, hfail'⟩
        cases before with
        | nil =>
          obtain ⟨rfl, rfl⟩ := List.cons.inj hsplit
          have herror' := checkSample_fails hfail'
          rw [List.length_nil, Nat.add_zero, herror] at herror'
          cases herror'
          rfl
        | cons query'' before =>
          obtain ⟨rfl, rfl⟩ := List.cons.inj hsplit
          obtain ⟨g', hg', -⟩ := checkSample_passes ((List.forall_mem_cons.mp hbefore).1) k
          rw [hg'] at herror
          cases herror

/-- The heads of the loop over one sample: its session, the bytes consumed
and the rest. -/
inductive LoopHead (vocab : Vocab) (query : Bytes) : Session → Nat → Bytes → Prop where
  | start {g : CompiledGrammar} (hg : g.vocab = vocab) :
      LoopHead vocab query (.build g none) 0 query
  | next {s s' : Session} {n id : Nat} {rest : Bytes} (h : LoopHead vocab query s n rest)
      (hid : longestMatch vocab rest = some id) (hbit : s.allowedMask.mask.test id = true)
      (hok : s.allowedMask.acceptToken id = .ok s') :
      LoopHead vocab query s' (n + (vocab.bytesOrEmpty id).length)
        (rest.drop (vocab.bytesOrEmpty id).length)

theorem LoopHead.checking {vocab : Vocab} {query : Bytes} {s : Session} {n : Nat} {rest : Bytes}
    (h : LoopHead vocab query s n rest) : Checking vocab s := by
  induction h with
  | start hg => exact .build hg
  | @next s s' n id rest _ hid hbit hok ih =>
    obtain ⟨s'', hs'', hchecking⟩ := ih.accepts (longestMatch_longest hid).lt hbit
    rw [hok, Except.ok.injEq] at hs''
    rwa [hs'']

/-- The check ends on every list of samples. It passes when each of them
does, and otherwise reports the first that does not with the error its
longest matches come to; a token whose bit is set is never refused. -/
theorem selfCheck_exact (g : CompiledGrammar) (samples : List Bytes) :
    (selfCheck g samples = .ok () ↔ ∀ query ∈ samples, g.vocab.Passes query) ∧
    (∀ e, selfCheck g samples = .error e ↔
      ∃ before query after, samples = before ++ query :: after ∧
        (∀ query' ∈ before, g.vocab.Passes query') ∧ g.vocab.Fails query before.length e) ∧
    ∀ query s n rest id, LoopHead g.vocab query s n rest → longestMatch g.vocab rest = some id →
      s.allowedMask.mask.test id = true → ∃ s', s.allowedMask.acceptToken id = .ok s' := by
  refine ⟨checkSamples_ok_iff samples g 0, ?_, ?_⟩
  · intro e
    rw [selfCheck, checkSamples_error_iff samples g 0 e]
    simp only [Nat.zero_add]
  · intro query s n rest id hhead hid hbit
    obtain ⟨s', hs', -⟩ := hhead.checking.accepts (longestMatch_longest hid).lt hbit
    exact ⟨s', hs'⟩

/-! ## Samples the tokens could spell -/

/-- The text is a concatenation of non-empty tokens. -/
def Vocab.Covers (vocab : Vocab) (text : Bytes) : Prop :=
  ∃ tokens : List Bytes, (∀ t ∈ tokens, vocab.Has t ∧ t ≠ []) ∧ tokens.flatten = text

theorem Vocab.Covers.append {vocab : Vocab} {u v : Bytes} (hu : vocab.Covers u)
    (hv : vocab.Covers v) : vocab.Covers (u ++ v) := by
  obtain ⟨us, hus, rfl⟩ := hu
  obtain ⟨vs, hvs, rfl⟩ := hv
  refine ⟨us ++ vs, fun t ht => ?_, List.flatten_append⟩
  rcases List.mem_append.mp ht with ht | ht
  · exact hus t ht
  · exact hvs t ht

theorem Vocab.Covers.token {vocab : Vocab} {t : Bytes} (ht : vocab.Has t) (hne : t ≠ []) :
    vocab.Covers t := by
  refine ⟨[t], fun t' ht' => ?_, by simp⟩
  rw [List.mem_singleton] at ht'
  exact ht' ▸ ⟨ht, hne⟩

/-- Some token begins the text. -/
def Vocab.Begins (vocab : Vocab) (text : Bytes) : Prop := ∃ t, vocab.Has t ∧ t ≠ [] ∧ t <+: text

theorem Vocab.stuck_iff {vocab : Vocab} {text : Bytes} : vocab.Stuck text ↔ ¬ vocab.Begins text := by
  constructor
  · rintro hstuck ⟨t, ht, hne, hpre⟩
    exact hstuck t ht hne hpre
  · intro hbegins t ht hne hpre
    exact hbegins ⟨t, ht, hne, hpre⟩

theorem Vocab.Begins.append {vocab : Vocab} {text : Bytes} (h : vocab.Begins text) (w : Bytes) :
    vocab.Begins (text ++ w) := by
  obtain ⟨t, ht, hne, hpre⟩ := h
  exact ⟨t, ht, hne, hpre.trans (List.prefix_append text w)⟩

/-- Of a text that tokens spell, `u` before one token `a ++ b` and `w`
behind it, longest tokens that stay alive spell `u ++ a`: they end inside
the token. -/
structure Vocab.Cut (vocab : Vocab) (u a b w : Bytes) : Prop where
  before : vocab.Covers u
  token : vocab.Has (a ++ b)
  left : a ≠ []
  right : b ≠ []
  behind : vocab.Covers w
  longest : ∃ ids, vocab.Greedy ids (u ++ a) (b ++ w)
  alive : ∃ p, Pda.new.advanceAll (u ++ a) = .ok p

theorem Vocab.Cut.covers {vocab : Vocab} {u a b w : Bytes} (h : vocab.Cut u a b w) :
    vocab.Covers (u ++ a ++ (b ++ w)) := by
  have htoken : vocab.Covers (a ++ b) := .token h.token (by simp [h.left])
  have hcovers := h.before.append (htoken.append h.behind)
  simpa only [List.append_assoc] using hcovers

/-- The longest match of a text is that of every front of it that still
holds the match. -/
theorem Vocab.Longest.of_append {vocab : Vocab} {text w : Bytes} {id : Nat} {t : Bytes}
    (h : vocab.Longest (text ++ w) id t) (hpre : t <+: text) : vocab.Longest text id t where
  lt := h.lt
  bytes := h.bytes
  nonempty := h.nonempty
  isPrefix := hpre
  longest id' hid' t' ht' hpre' :=
    h.longest id' hid' t' ht' (hpre'.trans (List.prefix_append text w))

theorem Vocab.Greedy.of_append {vocab : Vocab} {ids : List Nat} {front rest w : Bytes}
    (h : vocab.Greedy ids front (rest ++ w)) : vocab.Greedy ids front rest := by
  generalize hrest : rest ++ w = all at h
  induction h with
  | nil => exact .nil
  | @cons id ids t front all ht _ ih =>
    subst hrest
    refine .cons (Longest.of_append (w := w) ?_ (List.prefix_append t _)) (ih rfl)
    simpa only [List.append_assoc] using ht

/-- What stands behind the cut token does not matter to the cut. -/
theorem Vocab.Cut.truncate {vocab : Vocab} {u a b w : Bytes} (h : vocab.Cut u a b w) :
    vocab.Cut u a b [] where
  before := h.before
  token := h.token
  left := h.left
  right := h.right
  behind := ⟨[], by simp, rfl⟩
  longest := by
    obtain ⟨ids, hgreedy⟩ := h.longest
    rw [List.append_nil]
    exact ⟨ids, hgreedy.of_append⟩
  alive := h.alive

/-- A place inside a spelled text lies in one of its tokens. -/
theorem flatten_eq_append {tokens : List Bytes} {front rest : Bytes}
    (h : tokens.flatten = front ++ rest) (hrest : rest ≠ []) :
    ∃ before a b after, tokens = before ++ (a ++ b) :: after ∧ front = before.flatten ++ a ∧
      rest = b ++ after.flatten ∧ b ≠ [] := by
  induction tokens generalizing front with
  | nil =>
    have hnil := (List.append_eq_nil_iff.mp h.symm).2
    exact absurd hnil hrest
  | cons t tokens ih =>
    rw [List.flatten_cons] at h
    rcases List.append_eq_append_iff.mp h with ⟨front', rfl, htail⟩ | ⟨b, rfl, hb⟩
    · obtain ⟨before, a, b, after, rfl, rfl, hsplit, hb⟩ := ih htail
      exact ⟨t :: before, a, b, after, rfl, by simp, hsplit, hb⟩
    · by_cases hnil : b = []
      · subst hnil
        obtain ⟨before, a, b, after, rfl, hfront, hsplit, hb⟩ := @ih [] hb.symm
        exact ⟨front :: before, a, b, after, by simp, by simp [← hfront], hsplit, hb⟩
      · exact ⟨[], front, b, tokens, rfl, rfl, hb, hnil⟩

/-- A sample that tokens spell and the check calls unsegmentable has one of
these tokens cut by the longest ones, and no token begins what is left. -/
theorem Vocab.Covers.cut {vocab : Vocab} {front rest : Bytes} {ids : List Nat} {p : Pda}
    (h : vocab.Covers (front ++ rest)) (hgreedy : vocab.Greedy ids front rest)
    (hlive : Pda.new.advanceAll front = .ok p) (hrest : rest ≠ []) (hstuck : vocab.Stuck rest) :
    ∃ u a b w, front = u ++ a ∧ rest = b ++ w ∧ vocab.Cut u a b w := by
  obtain ⟨tokens, htokens, hflat⟩ := h
  obtain ⟨before, a, b, after, rfl, rfl, rfl, hb⟩ := flatten_eq_append hflat hrest
  obtain ⟨htoken, -⟩ := htokens (a ++ b) (by simp)
  have hleft : a ≠ [] := by
    rintro rfl
    -- a token that begins at the stalled offset begins the rest
    exact hstuck b htoken hb (List.prefix_append b _)
  refine ⟨before.flatten, a, b, after.flatten, rfl, rfl, ⟨before, fun t ht => ?_, rfl⟩, htoken,
    hleft, hb, ⟨after, fun t ht => ?_, rfl⟩, ⟨ids, hgreedy⟩, ⟨p, hlive⟩⟩
  · exact htokens t (List.mem_append_left _ ht)
  · exact htokens t (List.mem_append_right _ (List.mem_cons_of_mem _ ht))

/-- An unsegmentable report is about a query that no tokens spell. -/
def ReportsGaps (g : CompiledGrammar) (samples : List Bytes) : Prop :=
  ∀ k pos query, selfCheck g samples = .error (.unsegmentable k pos) →
    samples[k]? = some query → ¬ g.vocab.Covers query

theorem reportsGaps_iff {g : CompiledGrammar} {samples : List Bytes} :
    ReportsGaps g samples ↔ ∀ before query after, samples = before ++ query :: after →
      (∀ query' ∈ before, g.vocab.Passes query') →
        ∀ u a b w, query = u ++ a ++ (b ++ w) → g.vocab.Cut u a b w → g.vocab.Begins (b ++ w) := by
  have hreport : ∀ k pos, selfCheck g samples = .error (.unsegmentable k pos) ↔
      ∃ before query after, samples = before ++ query :: after ∧
        (∀ query' ∈ before, g.vocab.Passes query') ∧
          g.vocab.Fails query before.length (.unsegmentable k pos) := by
    intro k pos
    rw [selfCheck, checkSamples_error_iff]
    simp only [Nat.zero_add]
  constructor
  · intro hall before query after hsplit hbefore u a b w hquery hcut
    by_contra hbegins
    obtain ⟨ids, hgreedy⟩ := hcut.longest
    obtain ⟨p, hlive⟩ := hcut.alive
    have hfail : g.vocab.Fails query before.length
        (.unsegmentable before.length (u ++ a).length) :=
      .unsegmentable hquery hgreedy hlive (by simp [hcut.right]) (Vocab.stuck_iff.mpr hbegins)
    refine hall before.length (u ++ a).length query ?_ (by rw [hsplit]; simp) (hquery ▸ hcut.covers)
    exact (hreport _ _).mpr ⟨before, query, after, hsplit, hbefore, hfail⟩
  · intro hall k pos query hcheck hquery hcovers
    obtain ⟨before, query', after, hsplit, hbefore, hfail⟩ := (hreport k pos).mp hcheck
    generalize hk : before.length = n at hfail
    cases hfail with
    | @unsegmentable ids front rest p hparts hgreedy hlive hrest hstuck =>
      have hsame : query' = query := by
        rw [hsplit, ← hk] at hquery
        simpa using hquery
      rw [← hsame, hparts] at hcovers
      obtain ⟨u, a, b, w, rfl, rfl, hcut⟩ := hcovers.cut hgreedy hlive hrest hstuck
      exact Vocab.stuck_iff.mp hstuck (hall before query' after hsplit hbefore u a b w hparts hcut)

/-- When every end of a token begins with a token all reports are right, -/
theorem reportsGaps_of_ends {g : CompiledGrammar}
    (h : ∀ a b, g.vocab.Has (a ++ b) → b ≠ [] → g.vocab.Begins b) (samples : List Bytes) :
    ReportsGaps g samples :=
  reportsGaps_iff.mpr fun _ _ _ _ _ _ a b w _ hcut => (h a b hcut.token hcut.right).append w

/-- as with a token for each byte. -/
theorem reportsGaps_of_bytes {g : CompiledGrammar} (h : ∀ b, g.vocab.Has [b])
    (samples : List Bytes) : ReportsGaps g samples := by
  refine reportsGaps_of_ends (fun a b _ hb => ?_) samples
  obtain ⟨x, rest, rfl⟩ := List.exists_cons_of_ne_nil hb
  exact ⟨[x], h x, by simp, ⟨rest, rfl⟩⟩

/-- The longest token at the front leaves a `)` that is no token, and the
two others would have spelled the query. -/
def strandingVocab : Vocab := ⟨[ascii "|A.all(", ascii "|A", ascii ".all()"], 3⟩

end PureCard
