/-
PureCard.Schema.TrieRules — a trie rule by itself.

`narrow_trie` and `narrow_fused_into` build the trie of a set of names
once, and one mask for each cursor the lexeme in flight has come to.
`keepsFrom_iff` says which tokens such a mask keeps, by the prefixes of
the names alone.

The memo is taken as earlier calls left it: `Earlier` closes an empty
entry under calls for the same names, whatever order they came in and
whatever happens to other entries meanwhile. Such an entry holds the trie
of the names and right masks only (`entryOf_earlier`), and so an answer
out of the memo is the fresh one (`trie_narrowing_exact`).
-/
import PureCard.Schema.Memo
import PureCard.Schema.Gaps

namespace PureCard

open Completion

/-! ## The rule, token by token -/

/-- A walk from the root that comes off the names has left them. -/
theorem not_live_of_walk {names : List Bytes} {pfx : Bytes}
    (h : (walk (.fromNames names) (Trie.fromNames names).root pfx).verdict ≠ .live) :
    ¬ (pfx = [] ∨ Live {n | n ∈ names} pfx) := by
  rintro (rfl | hlive)
  · exact h rfl
  · rw [walk_eq_verdict (follow_root _)] at h
    have hempty : Live {n | n ∈ names} [] := hlive.of_prefix (List.nil_prefix)
    exact h ((verdict_eq_live_iff hempty).mpr hlive)

/-- **Which tokens a trie rule keeps** after the bytes `pfx` of a name. -/
theorem keepsFrom_iff {names : List Bytes} {kind : TrieKind} {pfx bytes : Bytes} :
    keepsFrom (.fromNames names) kind pfx bytes = true ↔
      (pfx = [] ∨ Live {n | n ∈ names} pfx) → isCandidate bytes kind (pfx ≠ []) = true →
        verdict {n | n ∈ names} EndsIdent pfx bytes ≠ .off := by
  have hleft := @not_live_of_walk names pfx
  unfold keepsFrom
  cases hw : walk (.fromNames names) (Trie.fromNames names).root pfx with
  | stay cursor =>
    have hcursor := follow_of_walk_stay (follow_root _) hw
    rw [List.nil_append] at hcursor
    have hpath := Trie.follow_fromNames names pfx
    rw [hcursor] at hpath
    have hmid : (cursor != (Trie.fromNames names).root) = decide (pfx ≠ []) := by
      by_cases hpfx : pfx = []
      · rw [hpfx, follow_root, Option.some.injEq] at hcursor
        simp [hpfx, hcursor]
      · have hne : cursor ≠ (Trie.fromNames names).root := by
          rintro rfl
          exact hpfx (Trie.follow_injective hcursor (follow_root _))
        simp [hne, hpfx]
    have hoff : walk (.fromNames names) cursor bytes ≠ .diverge ↔
        verdict {n | n ∈ names} EndsIdent pfx bytes ≠ .off := by
      rw [← walk_eq_verdict hcursor bytes]
      cases walk (.fromNames names) cursor bytes <;> simp [Walk.verdict]
    dsimp only
    rw [keepsTrie, hmid]
    cases isCandidate bytes kind (decide (pfx ≠ [])) with
    | false => simp
    | true =>
      simp only [if_true, decide_eq_true_eq, forall_const]
      rw [hoff]
      exact ⟨fun h _ => h, fun h => h (hpath.mp rfl)⟩
  | complete =>
    rw [hw] at hleft
    simp [hleft (by simp [Walk.verdict])]
  | diverge =>
    rw [hw] at hleft
    simp [hleft (by simp [Walk.verdict])]

/-- What is not off, also where nothing is live. -/
theorem verdict_cons_ne_off_iff {names : Set Bytes} {ends : UInt8 → Prop} {p : Bytes} (b : UInt8)
    (t : Bytes) : verdict names ends p (b :: t) ≠ .off ↔ Live names (p ++ b :: t) ∨
      ∃ a c r, b :: t = a ++ c :: r ∧ p ++ a ∈ names ∧ ¬ Live names (p ++ a ++ [c]) ∧ ends c := by
  by_cases hp : Live names p
  · exact verdict_ne_off_iff hp
  · have hoff : verdict names ends p (b :: t) = .off := by
      have hstep : ¬ Live names (p ++ [b]) := fun h => hp h.of_append
      have hname : ¬ (p ∈ names ∧ ends b) := fun h => hp (.of_mem h.1)
      rw [verdict, if_neg hstep, if_neg hname]
    rw [hoff]
    refine iff_of_false (fun h => h rfl) ?_
    rintro (h | ⟨a, c, r, _, hn, _⟩)
    · exact hp h.of_append
    · exact hp (Live.of_mem hn).of_append

/-! ## The memo of one rule -/

/-- The entry of `key` after any earlier calls of one rule: none yet, or
what they made of it. Other entries may change freely. -/
inductive Earlier (key : CacheKey) (call : NarrowCache → NarrowCache → Prop) : NarrowCache → Prop where
  | fresh {cache : NarrowCache} (h : cache.tries.lookup key = none) : Earlier key call cache
  | other {cache cache' : NarrowCache} (h : Earlier key call cache)
      (hsame : cache'.tries.lookup key = cache.tries.lookup key) : Earlier key call cache'
  | called {cache cache' : NarrowCache} (h : Earlier key call cache) (hcall : call cache cache') :
      Earlier key call cache'

/-- A call of `narrow_trie` for the rule: the names in some order, any
prefix, any buffer of the mask length. -/
def TrieCall (key : CacheKey) (names : List Bytes) (kind : TrieKind) (vocab : Vocab)
    (cache cache' : NarrowCache) : Prop :=
  ∃ dst pfx names', dst.len = vocab.maskLen ∧ (∀ n, n ∈ names' ↔ n ∈ names) ∧
    cache' = (narrowTrie dst cache key pfx kind vocab (.fromNames names')).cache

/-- A call of `narrow_fused_trie` for the rule. -/
def FusedCall (key : CacheKey) (names : List Bytes) (vocab : Vocab)
    (cache cache' : NarrowCache) : Prop :=
  ∃ dst names', dst.len = vocab.maskLen ∧ (∀ n, n ∈ names' ↔ n ∈ names) ∧
    cache' = (narrowFusedTrie dst cache key vocab (.fromNames names')).cache

/-- The entry holds the trie of the names, and masks of what `keep` keeps. -/
structure EntryOf (names : List Bytes) (kind : TrieKind) (vocab : Vocab)
    (keep : Trie → Nat → Bytes → Bool) (e : RuleCache) : Prop where
  trie : ∃ names', (∀ n, n ∈ names' ↔ n ∈ names) ∧ e.trie = .fromNames names'
  kind : e.kind = kind
  masks : ∀ cursor m, e.masks.lookup cursor = some m → Holds m vocab (keep e.trie cursor)

section

variable {key : CacheKey} {names : List Bytes} {kind : TrieKind} {vocab : Vocab}
  {keep : Trie → Nat → Bytes → Bool} {dst : BitMask} {cache : NarrowCache}

/-- What is stored under the key is an entry of the rule. -/
def StoredOf (key : CacheKey) (names : List Bytes) (kind : TrieKind) (vocab : Vocab)
    (keep : Trie → Nat → Bytes → Bool) (cache : NarrowCache) : Prop :=
  ∀ e, cache.tries.lookup key = some e → EntryOf names kind vocab keep e

theorem StoredOf.entry (h : StoredOf key names kind vocab keep cache) {names' : List Bytes}
    (hnames : ∀ n, n ∈ names' ↔ n ∈ names) :
    EntryOf names kind vocab keep (cache.entry key kind (.fromNames names')) := by
  unfold NarrowCache.entry
  cases hlook : cache.tries.lookup key with
  | none => exact ⟨⟨names', hnames, rfl⟩, rfl, fun cursor m hm => by simp at hm⟩
  | some e => exact h e hlook

theorem EntryOf.stored {e : RuleCache} (he : EntryOf names kind vocab keep e) :
    StoredOf key names kind vocab keep { cache with tries := cache.tries.insert key e } := by
  intro e' hlook
  rw [Finmap.lookup_insert, Option.some.injEq] at hlook
  exact hlook ▸ he

/-- The mask of one cursor of an entry of the rule. -/
theorem EntryOf.memoMask {e : RuleCache} (he : EntryOf names kind vocab keep e)
    (hlen : dst.len = vocab.maskLen) (key : CacheKey) (cache : NarrowCache) {cursor : Nat}
    (fill : BitMask → BitMask)
    (hfill : Holds (fill dst) vocab (keep e.trie cursor)) :
    StoredOf key names kind vocab keep (memoMask dst cache key e cursor fill).cache ∧
      (memoMask dst cache key e cursor fill).applied = true ∧
      Holds (memoMask dst cache key e cursor fill).dst vocab (keep e.trie cursor) := by
  obtain ⟨m, e', hout, hm, hentry⟩ := memoMask_cases hlen (he.masks cursor) hfill
  have he' : EntryOf names kind vocab keep e' := by
    rcases hentry with rfl | rfl
    · exact he
    · exact ⟨he.trie, he.kind, holds_insert he.masks hm⟩
  rw [hout]
  exact ⟨he'.stored, rfl, hm⟩

/-- Any call after any earlier ones keeps the entry right. -/
theorem storedOf_earlier {call : NarrowCache → NarrowCache → Prop}
    (hcall : ∀ cache cache', StoredOf key names kind vocab keep cache → call cache cache' →
      StoredOf key names kind vocab keep cache') (h : Earlier key call cache) :
    StoredOf key names kind vocab keep cache := by
  induction h with
  | fresh hnone =>
    intro e he
    rw [hnone] at he
    cases he
  | other _ hsame ih =>
    intro e he
    rw [hsame] at he
    exact ih e he
  | called _ hc ih => exact hcall _ _ ih hc

end

/-! ## What survives -/

/-- A token of the first byte `b` is one the rule looks at. -/
def Governs (kind : TrieKind) (pfx : Bytes) (b : UInt8) : Prop :=
  match kind with
  | .ident => isIdentTail b = true
  | .str => b = Byte.quote ∨ pfx ≠ []

/-- The tokens that survive a rule for `names` behind the prefix `pfx`. -/
inductive Survives (names : List Bytes) (kind : TrieKind) (pfx : Bytes) : Bytes → Prop where
  | empty : Survives names kind pfx []
  | exempt {b : UInt8} {rest : Bytes} (h : ¬ Governs kind pfx b) :
      Survives names kind pfx (b :: rest)
  | front {t : Bytes} (h : ∃ n ∈ names, pfx ++ t <+: n) : Survives names kind pfx t
  | past {a r : Bytes} {b : UInt8} (hname : pfx ++ a ∈ names)
      (hoff : ¬ ∃ n ∈ names, pfx ++ a ++ [b] <+: n) (hb : isIdentTail b = false) :
      Survives names kind pfx (a ++ b :: r)

/-- A token that survives is empty, exempt, or not off the names. -/
theorem survives_iff {names : List Bytes} {kind : TrieKind} {pfx t : Bytes} :
    Survives names kind pfx t ↔
      (isCandidate t kind (pfx ≠ []) = true → verdict {n | n ∈ names} EndsIdent pfx t ≠ .off) := by
  cases t with
  | nil =>
    refine iff_of_true .empty ?_
    intro h
    cases h
  | cons b t =>
    rw [verdict_cons_ne_off_iff]
    have hcand : isCandidate (b :: t) kind (pfx ≠ []) = true ↔ Governs kind pfx b := by
      cases kind with
      | ident => exact Iff.rfl
      | str =>
        show ((decide (b = Byte.quote) || decide (pfx ≠ [])) = true) ↔ _
        rw [Bool.or_eq_true, decide_eq_true_eq, decide_eq_true_eq]
        exact Iff.rfl
    rw [hcand]
    constructor
    · intro h hgov
      generalize htok : b :: t = tok at h
      cases h with
      | empty => cases htok
      | exempt hfree =>
        obtain ⟨rfl, rfl⟩ := List.cons.inj htok
        exact absurd hgov hfree
      | front hfront => exact .inl hfront
      | @past a r c hname hoff hc => exact .inr ⟨a, c, r, rfl, hname, hoff, hc⟩
    · intro h
      by_cases hgov : Governs kind pfx b
      · rcases h hgov with hfront | ⟨a, c, r, hsplit, hname, hoff, hc⟩
        · exact .front hfront
        · rw [hsplit]
          exact .past hname hoff hc
      · exact .exempt hgov

/-! ## The two calls -/

section

variable {key : CacheKey} {names names' : List Bytes} {kind : TrieKind} {vocab : Vocab}
  {dst : BitMask} {cache : NarrowCache}

/-- The masks of a trie rule: one for each cursor. -/
abbrev TrieStored (key : CacheKey) (names : List Bytes) (kind : TrieKind) (vocab : Vocab) :
    NarrowCache → Prop :=
  StoredOf key names kind vocab fun trie cursor => keepsTrie trie cursor kind

/-- The masks of a fused rule: its one mask sits at the root. -/
abbrev FusedStored (key : CacheKey) (names : List Bytes) (vocab : Vocab) : NarrowCache → Prop :=
  StoredOf key names .ident vocab fun trie _ => keepsFused trie

/-- `narrow_trie` over a right entry: it applies where the prefix is empty
or still begins a name, and then keeps what survives. -/
theorem TrieStored.narrowTrie (h : TrieStored key names kind vocab cache)
    (hlen : dst.len = vocab.maskLen) (hnames : ∀ n, n ∈ names' ↔ n ∈ names) (pfx : Bytes) :
    TrieStored key names kind vocab
        (narrowTrie dst cache key pfx kind vocab (.fromNames names')).cache ∧
      ((pfx = [] ∨ Live {n | n ∈ names} pfx) →
        (narrowTrie dst cache key pfx kind vocab (.fromNames names')).applied = true ∧
        ∃ keep, Holds (narrowTrie dst cache key pfx kind vocab (.fromNames names')).dst vocab keep ∧
          ∀ t, keep t = true ↔ Survives names kind pfx t) ∧
      (¬ (pfx = [] ∨ Live {n | n ∈ names} pfx) →
        (narrowTrie dst cache key pfx kind vocab (.fromNames names')).applied = false ∧
        (narrowTrie dst cache key pfx kind vocab (.fromNames names')).dst = dst) := by
  have he := h.entry hnames
  obtain ⟨stored, hsame, htrie⟩ := he.trie
  have hset : {n | n ∈ stored} = {n | n ∈ names} := by
    ext n
    exact hsame n
  have hwalk := walk_eq_verdict (follow_root (.fromNames stored)) pfx
  have hreached : ∀ trie : Trie, (if pfx.isEmpty then .stay trie.root else walk trie trie.root pfx) =
      walk trie trie.root pfx := by
    intro trie
    cases pfx <;> rfl
  unfold PureCard.narrowTrie
  dsimp only
  rw [hreached, htrie, he.kind]
  cases hw : walk (.fromNames stored) (Trie.fromNames stored).root pfx with
  | stay cursor =>
    have hpfx : pfx = [] ∨ Live {n | n ∈ names} pfx := by
      have hcursor := follow_of_walk_stay (follow_root _) hw
      have hpath := Trie.follow_fromNames stored pfx
      rw [List.nil_append] at hcursor
      rw [hcursor, hset] at hpath
      exact hpath.mp rfl
    have hfill : Holds (fillTrie dst vocab (.fromNames stored) cursor kind) vocab
        (keepsTrie (cache.entry key kind (.fromNames names')).trie cursor kind) := by
      rw [htrie]
      exact holds_fillMask hlen _
    obtain ⟨hstored, happlied, hholds⟩ := he.memoMask hlen key cache
      (fun dst => fillTrie dst vocab (.fromNames stored) cursor kind) hfill
    refine ⟨hstored, fun _ => ⟨happlied, _, hholds, ?_⟩, fun hnot => absurd hpfx hnot⟩
    intro t
    have hkeeps : keepsTrie (.fromNames stored) cursor kind t =
        keepsFrom (.fromNames stored) kind pfx t := by rw [keepsFrom, hw]
    rw [htrie, hkeeps, keepsFrom_iff, hset, survives_iff]
    exact ⟨fun hk => hk hpfx, fun hk _ => hk⟩
  | complete =>
    have hoff : (walk (.fromNames stored) (Trie.fromNames stored).root pfx).verdict ≠ .live := by
      rw [hw]
      simp [Walk.verdict]
    have hpfx := not_live_of_walk hoff
    rw [hset] at hpfx
    exact ⟨he.stored, fun hlive => absurd hlive hpfx, fun _ => ⟨rfl, rfl⟩⟩
  | diverge =>
    have hoff : (walk (.fromNames stored) (Trie.fromNames stored).root pfx).verdict ≠ .live := by
      rw [hw]
      simp [Walk.verdict]
    have hpfx := not_live_of_walk hoff
    rw [hset] at hpfx
    exact ⟨he.stored, fun hlive => absurd hlive hpfx, fun _ => ⟨rfl, rfl⟩⟩

/-- `narrow_fused_trie` over a right entry. -/
theorem FusedStored.narrowFusedTrie (h : FusedStored key names vocab cache)
    (hlen : dst.len = vocab.maskLen) (hnames : ∀ n, n ∈ names' ↔ n ∈ names) :
    FusedStored key names vocab
        (narrowFusedTrie dst cache key vocab (.fromNames names')).cache ∧
      (narrowFusedTrie dst cache key vocab (.fromNames names')).applied = true ∧
      ∃ keep, Holds (narrowFusedTrie dst cache key vocab (.fromNames names')).dst vocab keep ∧
        ∀ t, keep t = true ↔ ∀ b rest, t = Byte.dot :: b :: rest → isIdentStart b = true →
          Survives names .ident [] (b :: rest) := by
  have he := h.entry hnames
  obtain ⟨stored, hsame, htrie⟩ := he.trie
  have hset : {n | n ∈ stored} = {n | n ∈ names} := by
    ext n
    exact hsame n
  have hfill : Holds (fillFusedTrie dst vocab (.fromNames stored)) vocab
      (keepsFused (cache.entry key .ident (.fromNames names')).trie) := by
    rw [htrie]
    exact holds_fillMask hlen _
  obtain ⟨hstored, happlied, hholds⟩ := he.memoMask hlen key cache
    (fun dst => fillFusedTrie dst vocab (.fromNames stored)) hfill
  unfold PureCard.narrowFusedTrie
  dsimp only
  rw [htrie]
  refine ⟨hstored, happlied, _, hholds, ?_⟩
  intro t
  rw [htrie]
  have hword : ∀ b rest, isIdentStart b = true →
      (walk (.fromNames stored) (Trie.fromNames stored).root (b :: rest) ≠ .diverge ↔
        Survives names .ident [] (b :: rest)) := by
    intro b rest hb
    have hcand : isCandidate (b :: rest) .ident false = true :=
      ScopeTracker.isIdentTail_of_start hb
    rw [survives_iff, ← hset, ← walk_eq_verdict (follow_root (.fromNames stored))]
    cases walk (.fromNames stored) (Trie.fromNames stored).root (b :: rest) <;>
      simp [Walk.verdict, hcand]
  unfold keepsFused
  cases hpost : fusedPostDot t with
  | none =>
    refine iff_of_true rfl ?_
    rintro b rest rfl hb
    simp [fusedPostDot, hb] at hpost
  | some w =>
    obtain ⟨b, rest, rfl, rfl, hb⟩ : ∃ b rest, t = Byte.dot :: b :: rest ∧ w = b :: rest ∧
        isIdentStart b = true := by
      unfold fusedPostDot at hpost
      split at hpost
      · rename_i dot first rest
        split at hpost
        · rename_i hcond
          exact ⟨first, rest, by rw [hcond.1], (Option.some.inj hpost).symm, hcond.2⟩
        · cases hpost
      · cases hpost
    dsimp only
    rw [decide_eq_true_eq, hword b rest hb]
    constructor
    · rintro hs b' rest' heq -
      obtain ⟨rfl, rfl⟩ := List.cons.inj (List.cons.inj heq).2
      exact hs
    · intro hall
      exact hall b rest rfl hb

/-- The rule of a fused navigation dot: its key and its names. -/
def L2Position.fusedRule (schema : Schema) (columns : List Bytes) :
    L2Position → Option (CacheKey × List Bytes)
  | .member cls => some (.fusedMember cls, schema.memberNames cls)
  | .relationColumn => some (.fusedRelationColumn columns.length, columns)
  | _ => Option.none

theorem narrowFusedInto_rule {schema : Schema} {columns : List Bytes} {pos : L2Position}
    (h : pos.fusedRule schema columns = some (key, names)) :
    narrowFusedInto dst cache schema pos columns vocab =
      narrowFusedTrie dst cache key vocab (.fromNames names) := by
  cases pos with
  | member cls =>
    cases h
    rfl
  | relationColumn =>
    cases h
    rfl
  | _ => cases h

theorem trieStored_earlier (h : Earlier key (TrieCall key names kind vocab) cache) :
    TrieStored key names kind vocab cache := by
  refine storedOf_earlier ?_ h
  rintro cache cache' hstored ⟨dst, pfx, names', hlen, hnames, rfl⟩
  exact (TrieStored.narrowTrie hstored hlen hnames pfx).1

theorem fusedStored_earlier (h : Earlier key (FusedCall key names vocab) cache) :
    FusedStored key names vocab cache := by
  refine storedOf_earlier ?_ h
  rintro cache cache' hstored ⟨dst, names', hlen, hnames, rfl⟩
  exact (FusedStored.narrowFusedTrie hstored hlen hnames).1

/-- Trie narrowing is reachability by prefixes, whatever the memo of the
rule holds: no constraint behind a prefix that begins no name, and
otherwise EOS and the tokens that survive; a fused dot loses the names
that do not. -/
theorem trie_narrowing_exact (hlen : dst.len = vocab.maskLen)
    (hmemo : Earlier key (TrieCall key names kind vocab) cache) (pfx : Bytes) :
    ((narrowTrie dst cache key pfx kind vocab (.fromNames names)).applied = false ↔
        pfx ≠ [] ∧ ¬ ∃ n ∈ names, pfx <+: n) ∧
      ((narrowTrie dst cache key pfx kind vocab (.fromNames names)).applied = false →
        (narrowTrie dst cache key pfx kind vocab (.fromNames names)).dst = dst) ∧
      ((narrowTrie dst cache key pfx kind vocab (.fromNames names)).applied = true → ∀ id,
        ((narrowTrie dst cache key pfx kind vocab (.fromNames names)).dst.test id = true ↔
          id = vocab.eosBit ∨
            (id < vocab.eosBit ∧ Survives names kind pfx (vocab.bytesOrEmpty id)))) ∧
      ∀ schema columns pos fkey fnames fcache,
        L2Position.fusedRule schema columns pos = some (fkey, fnames) →
        Earlier fkey (FusedCall fkey fnames vocab) fcache →
        (narrowFusedInto dst fcache schema pos columns vocab).applied = true ∧ ∀ id,
          ((narrowFusedInto dst fcache schema pos columns vocab).dst.test id = true ↔
            id = vocab.eosBit ∨ (id < vocab.eosBit ∧
              ∀ b rest, vocab.bytesOrEmpty id = Byte.dot :: b :: rest → isIdentStart b = true →
                Survives fnames .ident [] (b :: rest))) := by
  have hholds : ∀ {m : BitMask} {keep : Bytes → Bool} {P : Bytes → Prop}, Holds m vocab keep →
      (∀ t, keep t = true ↔ P t) → ∀ id, (m.test id = true ↔
        id = vocab.eosBit ∨ (id < vocab.eosBit ∧ P (vocab.bytesOrEmpty id))) := by
    intro m keep P hm hkeep id
    rw [hm.test, Bool.or_eq_true, Bool.and_eq_true, decide_eq_true_eq, decide_eq_true_eq, hkeep]
  obtain ⟨-, hlive, hoff⟩ := (trieStored_earlier hmemo).narrowTrie hlen (fun n => Iff.rfl) pfx
  refine ⟨?_, ?_, ?_, ?_⟩
  · constructor
    · intro happlied
      refine not_or.mp ?_
      intro hpfx
      rw [(hlive hpfx).1] at happlied
      cases happlied
    · intro hpfx
      exact (hoff (not_or.mpr hpfx)).1
  · intro happlied
    refine (hoff ?_).2
    intro hpfx
    rw [(hlive hpfx).1] at happlied
    cases happlied
  · intro happlied
    by_cases hpfx : pfx = [] ∨ Live {n | n ∈ names} pfx
    · obtain ⟨-, keep, hm, hkeep⟩ := hlive hpfx
      exact hholds hm hkeep
    · rw [(hoff hpfx).1] at happlied
      cases happlied
  · intro schema columns pos fkey fnames fcache hrule hfused
    rw [narrowFusedInto_rule hrule]
    obtain ⟨-, happlied, keep, hm, hkeep⟩ :=
      (fusedStored_earlier hfused).narrowFusedTrie hlen fun n => Iff.rfl
    exact ⟨happlied, hholds hm hkeep⟩

end

/-- Of two names the one begins the other; the tokens go on with either,
or with neither. -/
def overlapVocab : Vocab := ⟨[ascii "b", ascii "(", ascii "c"], 3⟩

/-- The `(` behind the shorter name, before any call of the rule. -/
theorem trie_narrowing_exact_overlap :
    (narrowTrie (.withLen overlapVocab.maskLen) .new (.member (ascii "A")) (ascii "a") .ident
        overlapVocab (.fromNames [ascii "ab", ascii "a"])).dst.test 1 = true ↔
      1 = overlapVocab.eosBit ∨ (1 < overlapVocab.eosBit ∧
        Survives [ascii "ab", ascii "a"] .ident (ascii "a") (overlapVocab.bytesOrEmpty 1)) :=
  (trie_narrowing_exact rfl (.fresh (Finmap.lookup_empty _)) (ascii "a")).2.2.1
    (by decide +kernel) 1

end PureCard
