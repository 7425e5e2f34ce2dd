/-
PureCard.Schema.Narrow — the schema-legal masks (`src/schema/narrow.rs`).

`narrowInto` and `narrowFusedInto` refill the caller's buffer with the
tokens a position allows and say whether a constraint applied. Both keep
the masks they have computed in a `NarrowCache`; the keys are the
source's, the column rules keyed by the NUMBER of columns recorded so far.

The functions return the new cache, the refilled buffer and the flag.
-/
import PureCard.Grammar.Compiled
import PureCard.Schema.Scope
import PureCard.Schema.Trie

namespace PureCard

/-- `LET_KEYWORD`. -/
def letKeyword : Bytes := ascii "let"

/-- Which lexeme a trie rule governs. -/
inductive TrieKind where
  | ident
  | str
  deriving DecidableEq, Repr

/-- The identity of a memoized mask. -/
inductive CacheKey where
  | source
  | member (cls : Bytes)
  | reValue (tc : TypeClass)
  | column (count : Nat)
  | relationColumn (count : Nat)
  | fusedMember (cls : Bytes)
  | fusedRelationColumn (count : Nat)
  deriving DecidableEq, Repr

/-- A rule's trie and its masks, one per cursor node. -/
structure RuleCache where
  trie : Trie
  kind : TrieKind
  masks : Finmap fun _ : Nat => BitMask

/-- The memoized schema-legal masks. -/
structure NarrowCache where
  operand : Finmap fun _ : CacheKey => BitMask
  tries : Finmap fun _ : CacheKey => RuleCache

/-- `NarrowCache::new`, and what `clear` leaves behind. -/
def NarrowCache.new : NarrowCache := ⟨∅, ∅⟩

/-! ## Which tokens a rule keeps -/

/-- Whether an operand token is kept against a left-hand side of class
`lhs`. -/
def keepsOperand (lex : Lexeme) (lhs : TypeClass) : Bool :=
  match lex with
  | .str _ => lhs = .str
  | .number => lhs = .numeric
  | .date => lhs = .temporal
  | _ => true

/-- Whether `bytes` is a token the trie may clear. -/
def isCandidate (bytes : Bytes) (kind : TrieKind) (midLexeme : Bool) : Bool :=
  match bytes with
  | [] => false
  | first :: _ =>
    match kind with
    | .ident => isIdentTail first
    | .str => first = Byte.quote || midLexeme

/-- The verdict of `fill_trie` on one token. -/
def keepsTrie (trie : Trie) (cursor : Nat) (kind : TrieKind) (bytes : Bytes) : Bool :=
  if isCandidate bytes kind (cursor != trie.root) then walk trie cursor bytes ≠ .diverge
  else true

/-- The bytes after the dot of a fused navigation token. -/
def fusedPostDot (bytes : Bytes) : Option Bytes :=
  match bytes with
  | dot :: first :: rest =>
    if dot = Byte.dot ∧ isIdentStart first then some (first :: rest) else none
  | _ => none

/-- The verdict of `fill_fused_trie` on one token. -/
def keepsFused (trie : Trie) (bytes : Bytes) : Bool :=
  match fusedPostDot bytes with
  | some rest => walk trie trie.root rest ≠ .diverge
  | none => true

/-- Double `'` and wrap in quotes: the bytes a column string is emitted
as. -/
def quote (content : Bytes) : Bytes :=
  Byte.quote ::
    (content.flatMap fun b => if b = Byte.quote then [Byte.quote, b] else [b]) ++ [Byte.quote]

/-! ## Filling -/

/-- The loop the three fill functions share: clear the buffer, set the
tokens the rule keeps, set the EOS bit. -/
def fillMask (dst : BitMask) (vocab : Vocab) (keep : Bytes → Bool) : BitMask :=
  ((List.range vocab.eosBit).foldl
    (fun m id => if keep (vocab.bytesOrEmpty id) then m.set id else m) dst.clearAll).set
    vocab.eosBit

def fillOperand (dst : BitMask) (vocab : Vocab) (maskedBy : TypeClass) : BitMask :=
  fillMask dst vocab fun bytes => keepsOperand (classify bytes) maskedBy

def fillTrie (dst : BitMask) (vocab : Vocab) (trie : Trie) (cursor : Nat) (kind : TrieKind) :
    BitMask :=
  fillMask dst vocab (keepsTrie trie cursor kind)

def fillFusedTrie (dst : BitMask) (vocab : Vocab) (trie : Trie) : BitMask :=
  fillMask dst vocab (keepsFused trie)

/-! ## The memo -/

/-- What a narrowing call leaves behind. -/
structure Narrowed where
  cache : NarrowCache
  dst : BitMask
  applied : Bool

/-- `with_cache` at the operand rule. -/
def withCache (dst : BitMask) (cache : NarrowCache) (key : CacheKey)
    (fill : BitMask → BitMask) : Narrowed :=
  match cache.operand.lookup key with
  | some cached => ⟨cache, dst.copyFrom cached, true⟩
  | none =>
    let dst := fill dst
    ⟨{ cache with operand := cache.operand.insert key dst }, dst, true⟩

/-- `cache.tries.entry(key).or_insert_with(..)`. -/
def NarrowCache.entry (cache : NarrowCache) (key : CacheKey) (kind : TrieKind) (trie : Trie) :
    RuleCache :=
  (cache.tries.lookup key).getD ⟨trie, kind, ∅⟩

/-- Copy the memoized mask of `cursor`, or fill and memoize it. -/
def memoMask (dst : BitMask) (cache : NarrowCache) (key : CacheKey) (entry : RuleCache)
    (cursor : Nat) (fill : BitMask → BitMask) : Narrowed :=
  match entry.masks.lookup cursor with
  | some cached =>
    ⟨{ cache with tries := cache.tries.insert key entry }, dst.copyFrom cached, true⟩
  | none =>
    let dst := fill dst
    let entry := { entry with masks := entry.masks.insert cursor dst }
    ⟨{ cache with tries := cache.tries.insert key entry }, dst, true⟩

/-- Narrow `dst` by a trie rule at the cursor of `pfx`. -/
def narrowTrie (dst : BitMask) (cache : NarrowCache) (key : CacheKey) (pfx : Bytes)
    (kind : TrieKind) (vocab : Vocab) (trie : Trie) : Narrowed :=
  let entry := cache.entry key kind trie
  let reached :=
    if pfx.isEmpty then .stay entry.trie.root else walk entry.trie entry.trie.root pfx
  match reached with
  | .stay cursor =>
    memoMask dst cache key entry cursor fun dst =>
      fillTrie dst vocab entry.trie cursor entry.kind
  | .complete | .diverge =>
    -- the name is done, or was never legal
    ⟨{ cache with tries := cache.tries.insert key entry }, dst, false⟩

def narrowFusedTrie (dst : BitMask) (cache : NarrowCache) (key : CacheKey) (vocab : Vocab)
    (trie : Trie) : Narrowed :=
  let entry := cache.entry key .ident trie
  memoMask dst cache key entry entry.trie.root fun dst => fillFusedTrie dst vocab entry.trie

/-! ## The rules -/

/-- Refill `dst` with the schema-legal set for `pos`. -/
def narrowInto (dst : BitMask) (cache : NarrowCache) (schema : Schema) (pos : L2Position)
    (pfx : Bytes) (columns : List Bytes) (vocab : Vocab) : Narrowed :=
  match pos with
  | .none => ⟨cache, dst, false⟩
  | .reValue .boolean | .reValue .temporal => ⟨cache, dst, false⟩
  | .reValue tc => withCache dst cache (.reValue tc) fun dst => fillOperand dst vocab tc
  | .sourceIdent =>
    narrowTrie dst cache .source pfx .ident vocab
      (.fromNames (schema.sourcePaths ++ [letKeyword]))
  | .member cls =>
    narrowTrie dst cache (.member cls) pfx .ident vocab (.fromNames (schema.memberNames cls))
  | .column =>
    narrowTrie dst cache (.column columns.length) pfx .str vocab
      (.fromNames (columns.map quote))
  | .relationColumn =>
    narrowTrie dst cache (.relationColumn columns.length) pfx .ident vocab (.fromNames columns)

/-- Refill `dst` with the schema-legal set for a fused navigation dot. -/
def narrowFusedInto (dst : BitMask) (cache : NarrowCache) (schema : Schema) (pos : L2Position)
    (columns : List Bytes) (vocab : Vocab) : Narrowed :=
  match pos with
  | .member cls =>
    narrowFusedTrie dst cache (.fusedMember cls) vocab (.fromNames (schema.memberNames cls))
  | .relationColumn =>
    narrowFusedTrie dst cache (.fusedRelationColumn columns.length) vocab (.fromNames columns)
  | _ => ⟨cache, dst, false⟩

/-! ## The buffer keeps its length -/

@[simp] theorem len_fillMask (dst : BitMask) (vocab : Vocab) (keep : Bytes → Bool) :
    (fillMask dst vocab keep).len = dst.len := by
  unfold fillMask
  rw [BitMask.len_set, BitMask.len_foldl_set (fun id => keep (vocab.bytesOrEmpty id))]
  rfl

theorem len_memoMask {dst : BitMask} {cache : NarrowCache} {key : CacheKey} {entry : RuleCache}
    {cursor : Nat} {fill : BitMask → BitMask} (h : (fill dst).len = dst.len) :
    (memoMask dst cache key entry cursor fill).dst.len = dst.len := by
  unfold memoMask
  split
  · rfl
  · exact h

@[simp] theorem len_fillTrie (dst : BitMask) (vocab : Vocab) (trie : Trie) (cursor : Nat)
    (kind : TrieKind) : (fillTrie dst vocab trie cursor kind).len = dst.len :=
  len_fillMask ..

@[simp] theorem len_fillFusedTrie (dst : BitMask) (vocab : Vocab) (trie : Trie) :
    (fillFusedTrie dst vocab trie).len = dst.len :=
  len_fillMask ..

@[simp] theorem len_fillOperand (dst : BitMask) (vocab : Vocab) (tc : TypeClass) :
    (fillOperand dst vocab tc).len = dst.len :=
  len_fillMask ..

theorem len_narrowTrie (dst : BitMask) (cache : NarrowCache) (key : CacheKey) (pfx : Bytes)
    (kind : TrieKind) (vocab : Vocab) (trie : Trie) :
    (narrowTrie dst cache key pfx kind vocab trie).dst.len = dst.len := by
  unfold narrowTrie
  dsimp only
  split
  · exact len_memoMask (len_fillTrie ..)
  · rfl
  · rfl

theorem len_narrowFusedTrie (dst : BitMask) (cache : NarrowCache) (key : CacheKey)
    (vocab : Vocab) (trie : Trie) :
    (narrowFusedTrie dst cache key vocab trie).dst.len = dst.len := by
  unfold narrowFusedTrie
  exact len_memoMask (len_fillFusedTrie ..)

theorem len_narrowInto (dst : BitMask) (cache : NarrowCache) (schema : Schema) (pos : L2Position)
    (pfx : Bytes) (columns : List Bytes) (vocab : Vocab) :
    (narrowInto dst cache schema pos pfx columns vocab).dst.len = dst.len := by
  unfold narrowInto
  split
  · rfl
  · rfl
  · rfl
  · unfold withCache
    split
    · rfl
    · exact len_fillOperand ..
  all_goals exact len_narrowTrie ..

theorem len_narrowFusedInto (dst : BitMask) (cache : NarrowCache) (schema : Schema)
    (pos : L2Position) (columns : List Bytes) (vocab : Vocab) :
    (narrowFusedInto dst cache schema pos columns vocab).dst.len = dst.len := by
  unfold narrowFusedInto
  split
  · exact len_narrowFusedTrie ..
  · exact len_narrowFusedTrie ..
  · rfl

end PureCard
