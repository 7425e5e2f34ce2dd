/-
PureCard.Schema.Memo — the memoized masks are the masks.

`narrowInto` and `narrowFusedInto` answer from a memo when they can. A
memo entry is right when it is what the rule's names give, and the names
of a column rule are the FIRST columns of the stream, as many as the key
says: recording another column leaves every entry right. `Valid` is that
condition on the whole memo, and `narrowInto_meets` and
`narrowFusedInto_meets` say that under it both calls answer as if they had
filled the mask afresh, and leave a valid memo behind.

`legalAt` and `legalFused` are the fresh answers, token by token: they
read the position, the bytes of the lexeme in flight and the columns, and
no cache.
-/
import PureCard.Schema.Narrow

namespace PureCard

/-! ## The rules without a memo -/

namespace CacheKey

/-- The names a trie rule is built from. A column rule sees the first
columns only. -/
def names (schema : Schema) (columns : List Bytes) : CacheKey → List Bytes
  | .source => schema.sourcePaths ++ [letKeyword]
  | .member cls | .fusedMember cls => schema.memberNames cls
  | .column n => (columns.take n).map quote
  | .relationColumn n | .fusedRelationColumn n => columns.take n
  | .reValue _ => []

def kind : CacheKey → TrieKind
  | .column _ => .str
  | _ => .ident

/-- Which token a mask under the key keeps at a cursor. -/
def keeps (key : CacheKey) (trie : Trie) (cursor : Nat) (bytes : Bytes) : Bool :=
  match key with
  | .fusedMember _ | .fusedRelationColumn _ => keepsFused trie bytes
  | _ => keepsTrie trie cursor key.kind bytes

/-- A column key speaks of columns that have been recorded. -/
def Recorded (columns : List Bytes) : CacheKey → Prop
  | .column n | .relationColumn n | .fusedRelationColumn n => n ≤ columns.length
  | _ => True

/-- The trie of a key. -/
def trie (schema : Schema) (columns : List Bytes) (key : CacheKey) : Trie :=
  .fromNames (key.names schema columns)

end CacheKey

/-- Whether a trie rule keeps a token after the bytes `pfx` of its
lexeme. -/
def keepsFrom (trie : Trie) (kind : TrieKind) (pfx bytes : Bytes) : Bool :=
  match walk trie trie.root pfx with
  | .stay cursor => keepsTrie trie cursor kind bytes
  | .complete | .diverge => true

/-- Whether the rule at a position keeps a token. -/
def legalAt (schema : Schema) (pos : L2Position) (pfx : Bytes) (columns : List Bytes)
    (bytes : Bytes) : Bool :=
  match pos with
  | .none | .reValue .boolean | .reValue .temporal => true
  | .reValue tc => keepsOperand (classify bytes) tc
  | .sourceIdent =>
    keepsFrom (.fromNames (schema.sourcePaths ++ [letKeyword])) .ident pfx bytes
  | .member cls => keepsFrom (.fromNames (schema.memberNames cls)) .ident pfx bytes
  | .column => keepsFrom (.fromNames (columns.map quote)) .str pfx bytes
  | .relationColumn => keepsFrom (.fromNames columns) .ident pfx bytes

/-- Whether the rule of a fused navigation dot keeps a token. -/
def legalFused (schema : Schema) (pos : L2Position) (columns : List Bytes) (bytes : Bytes) :
    Bool :=
  match pos with
  | .member cls => keepsFused (.fromNames (schema.memberNames cls)) bytes
  | .relationColumn => keepsFused (.fromNames columns) bytes
  | _ => true

/-! ## Masks that hold what a rule keeps -/

/-- `m` is the mask of the tokens `keep` keeps, and EOS. -/
structure Holds (m : BitMask) (vocab : Vocab) (keep : Bytes → Bool) : Prop where
  len : m.len = vocab.maskLen
  test : ∀ id, m.test id = (decide (id = vocab.eosBit) ||
    (decide (id < vocab.eosBit) && keep (vocab.bytesOrEmpty id)))

theorem holds_fillMask {dst : BitMask} {vocab : Vocab} (hlen : dst.len = vocab.maskLen)
    (keep : Bytes → Bool) : Holds (fillMask dst vocab keep) vocab keep where
  len := by rw [len_fillMask, hlen]
  test id := by
    have hfold := BitMask.len_foldl_set (fun id => keep (vocab.bytesOrEmpty id))
      (List.range vocab.eosBit) dst.clearAll
    have htest := BitMask.test_foldl_set (fun id => keep (vocab.bytesOrEmpty id))
      (List.range vocab.eosBit) dst.clearAll id
    rw [BitMask.test_clearAll, BitMask.len_clearAll, hlen, Bool.false_or] at htest
    rw [BitMask.len_clearAll, hlen] at hfold
    rw [fillMask, BitMask.test_set, htest, hfold]
    rcases Nat.lt_trichotomy id vocab.eosBit with hid | rfl | hid
    · have hlt : id < vocab.maskLen := Nat.lt_succ_of_lt hid
      simp [hid, hlt]
    · simp [Vocab.maskLen]
    · have hge : ¬ id < vocab.maskLen := by
        unfold Vocab.maskLen
        omega
      simp [hge, Nat.ne_of_gt hid, Nat.not_lt_of_gt hid]

/-! ## The memo -/

/-- Every entry of the memo is right for the columns recorded so far. -/
structure NarrowCache.Valid (cache : NarrowCache) (schema : Schema) (columns : List Bytes)
    (vocab : Vocab) : Prop where
  operand : ∀ tc m, cache.operand.lookup (.reValue tc) = some m →
    Holds m vocab fun bytes => keepsOperand (classify bytes) tc
  recorded : ∀ key e, cache.tries.lookup key = some e → key.Recorded columns
  trie : ∀ key e, cache.tries.lookup key = some e → e.trie = key.trie schema columns
  kind : ∀ key e, cache.tries.lookup key = some e → e.kind = key.kind
  masks : ∀ key e cursor m, cache.tries.lookup key = some e → e.masks.lookup cursor = some m →
    Holds m vocab (key.keeps (key.trie schema columns) cursor)

theorem CacheKey.Recorded.names_append {columns : List Bytes} {key : CacheKey}
    (h : key.Recorded columns) (schema : Schema) (more : List Bytes) :
    key.names schema (columns ++ more) = key.names schema columns := by
  cases key with
  | column n => rw [names, names, List.take_append_of_le_length h]
  | relationColumn n => rw [names, names, List.take_append_of_le_length h]
  | fusedRelationColumn n => rw [names, names, List.take_append_of_le_length h]
  | _ => rfl

theorem CacheKey.Recorded.append {columns : List Bytes} {key : CacheKey}
    (h : key.Recorded columns) (more : List Bytes) : key.Recorded (columns ++ more) := by
  have hle : columns.length ≤ (columns ++ more).length := by simp
  cases key with
  | column n => exact Nat.le_trans h hle
  | relationColumn n => exact Nat.le_trans h hle
  | fusedRelationColumn n => exact Nat.le_trans h hle
  | _ => trivial

namespace NarrowCache.Valid

variable {cache : NarrowCache} {schema : Schema} {columns : List Bytes} {vocab : Vocab}

theorem empty (schema : Schema) (columns : List Bytes) (vocab : Vocab) :
    NarrowCache.new.Valid schema columns vocab where
  operand tc m h := by simp [NarrowCache.new] at h
  recorded key e h := by simp [NarrowCache.new] at h
  trie key e h := by simp [NarrowCache.new] at h
  kind key e h := by simp [NarrowCache.new] at h
  masks key e cursor m h := by simp [NarrowCache.new] at h

/-- **Recording columns leaves the memo right.** -/
theorem append (h : cache.Valid schema columns vocab) (more : List Bytes) :
    cache.Valid schema (columns ++ more) vocab where
  operand := h.operand
  recorded key e he := (h.recorded key e he).append more
  trie key e he := by
    rw [h.trie key e he, CacheKey.trie, CacheKey.trie,
      (h.recorded key e he).names_append schema more]
  kind := h.kind
  masks key e cursor m he hm := by
    rw [CacheKey.trie, (h.recorded key e he).names_append schema more]
    exact h.masks key e cursor m he hm

theorem extend {columns' : List Bytes} (h : cache.Valid schema columns vocab)
    (hpre : columns <+: columns') : cache.Valid schema columns' vocab := by
  obtain ⟨more, rfl⟩ := hpre
  exact h.append more

/-- Memoizing an operand mask. -/
theorem insert_operand (h : cache.Valid schema columns vocab) {tc : TypeClass} {m : BitMask}
    (hm : Holds m vocab fun bytes => keepsOperand (classify bytes) tc) :
    NarrowCache.Valid { cache with operand := cache.operand.insert (.reValue tc) m } schema columns
      vocab where
  operand tc' m' hlook := by
    by_cases htc : tc' = tc
    · subst htc
      rw [Finmap.lookup_insert, Option.some.injEq] at hlook
      exact hlook ▸ hm
    · rw [Finmap.lookup_insert_of_ne _ (by simp [htc])] at hlook
      exact h.operand tc' m' hlook
  recorded := h.recorded
  trie := h.trie
  kind := h.kind
  masks := h.masks

/-- An entry that may be stored under its key. -/
structure EntryValid (schema : Schema) (columns : List Bytes) (vocab : Vocab) (key : CacheKey)
    (e : RuleCache) : Prop where
  recorded : key.Recorded columns
  trie : e.trie = key.trie schema columns
  kind : e.kind = key.kind
  masks : ∀ cursor m, e.masks.lookup cursor = some m →
    Holds m vocab (key.keeps (key.trie schema columns) cursor)

theorem entry (h : cache.Valid schema columns vocab) {key : CacheKey}
    (hrec : key.Recorded columns) :
    EntryValid schema columns vocab key (cache.entry key key.kind (key.trie schema columns)) := by
  unfold NarrowCache.entry
  cases hlook : cache.tries.lookup key with
  | none => exact ⟨hrec, rfl, rfl, fun cursor m hm => by simp at hm⟩
  | some e =>
    exact ⟨hrec, h.trie key e hlook, h.kind key e hlook, fun cursor m => h.masks key e cursor m hlook⟩

theorem insert_entry (h : cache.Valid schema columns vocab) {key : CacheKey} {e : RuleCache}
    (he : EntryValid schema columns vocab key e) :
    NarrowCache.Valid { cache with tries := cache.tries.insert key e } schema columns vocab := by
  have hcases : ∀ k e', (cache.tries.insert key e).lookup k = some e' →
      (k = key ∧ e' = e) ∨ cache.tries.lookup k = some e' := by
    intro k e' hlook
    by_cases hk : k = key
    · subst hk
      rw [Finmap.lookup_insert, Option.some.injEq] at hlook
      exact .inl ⟨rfl, hlook.symm⟩
    · rw [Finmap.lookup_insert_of_ne _ hk] at hlook
      exact .inr hlook
  refine ⟨h.operand, ?_, ?_, ?_, ?_⟩
  · intro k e' hlook
    rcases hcases k e' hlook with ⟨rfl, rfl⟩ | hold
    · exact he.recorded
    · exact h.recorded k e' hold
  · intro k e' hlook
    rcases hcases k e' hlook with ⟨rfl, rfl⟩ | hold
    · exact he.trie
    · exact h.trie k e' hold
  · intro k e' hlook
    rcases hcases k e' hlook with ⟨rfl, rfl⟩ | hold
    · exact he.kind
    · exact h.kind k e' hold
  · intro k e' cursor m hlook hm
    rcases hcases k e' hlook with ⟨rfl, rfl⟩ | hold
    · exact he.masks cursor m hm
    · exact h.masks k e' cursor m hold hm

end NarrowCache.Valid

/-! ## What the two calls answer -/

/-- A narrowing call that keeps what `keep` keeps: a call that applies no
constraint keeps every token. -/
structure Narrowed.Meets (n : Narrowed) (schema : Schema) (columns : List Bytes) (vocab : Vocab)
    (keep : Bytes → Bool) : Prop where
  valid : n.cache.Valid schema columns vocab
  len : n.dst.len = vocab.maskLen
  applied : n.applied = true → Holds n.dst vocab keep
  passed : n.applied = false → ∀ bytes, keep bytes = true

section

variable {dst : BitMask} {cache : NarrowCache} {schema : Schema} {columns : List Bytes}
  {vocab : Vocab}

theorem meets_pass (hlen : dst.len = vocab.maskLen) (hvalid : cache.Valid schema columns vocab) :
    Narrowed.Meets ⟨cache, dst, false⟩ schema columns vocab fun _ => true :=
  ⟨hvalid, hlen, fun h => (by cases h), fun _ _ => rfl⟩

theorem withCache_meets (hlen : dst.len = vocab.maskLen)
    (hvalid : cache.Valid schema columns vocab) (tc : TypeClass) :
    (withCache dst cache (.reValue tc) fun dst => fillOperand dst vocab tc).Meets schema columns
      vocab fun bytes => keepsOperand (classify bytes) tc := by
  have hfill := holds_fillMask hlen fun bytes => keepsOperand (classify bytes) tc
  unfold withCache
  cases hlook : cache.operand.lookup (.reValue tc) with
  | some m =>
    have hm := hvalid.operand tc m hlook
    dsimp only
    rw [BitMask.copyFrom_eq (by rw [hm.len, hlen])]
    exact ⟨hvalid, hm.len, fun _ => hm, fun h => by cases h⟩
  | none => exact ⟨hvalid.insert_operand hfill, hfill.len, fun _ => hfill, fun h => by cases h⟩

/-- The mask of one cursor out of an entry or freshly filled: it holds
what `keep` keeps, and an entry that did not have it has it now. -/
theorem memoMask_cases {key : CacheKey} {e : RuleCache} {cursor : Nat} {fill : BitMask → BitMask}
    {keep : Bytes → Bool} (hlen : dst.len = vocab.maskLen)
    (he : ∀ m, e.masks.lookup cursor = some m → Holds m vocab keep)
    (hfill : Holds (fill dst) vocab keep) :
    ∃ m e', memoMask dst cache key e cursor fill =
        ⟨{ cache with tries := cache.tries.insert key e' }, m, true⟩ ∧ Holds m vocab keep ∧
      (e' = e ∨ e' = { e with masks := e.masks.insert cursor m }) := by
  unfold memoMask
  cases hlook : e.masks.lookup cursor with
  | some m =>
    have hm := he m hlook
    dsimp only
    rw [BitMask.copyFrom_eq (by rw [hm.len, hlen])]
    exact ⟨m, e, rfl, hm, .inl rfl⟩
  | none => exact ⟨fill dst, _, rfl, hfill, .inr rfl⟩

/-- Memoizing a right mask of one cursor leaves the masks right. -/
theorem holds_insert {masks : Finmap fun _ : Nat => BitMask} {keep : Nat → Bytes → Bool}
    (h : ∀ cursor m, masks.lookup cursor = some m → Holds m vocab (keep cursor)) {c : Nat}
    {m : BitMask} (hm : Holds m vocab (keep c)) :
    ∀ cursor m', (masks.insert c m).lookup cursor = some m' → Holds m' vocab (keep cursor) := by
  intro cursor m' hlook
  by_cases hc : cursor = c
  · subst hc
    rw [Finmap.lookup_insert, Option.some.injEq] at hlook
    exact hlook ▸ hm
  · rw [Finmap.lookup_insert_of_ne _ hc] at hlook
    exact h cursor m' hlook

/-- A memoized or freshly filled mask of one cursor. -/
theorem memoMask_meets (hlen : dst.len = vocab.maskLen)
    (hvalid : cache.Valid schema columns vocab) {key : CacheKey} {e : RuleCache}
    (he : NarrowCache.Valid.EntryValid schema columns vocab key e) (cursor : Nat)
    (fill : BitMask → BitMask)
    (hfill : Holds (fill dst) vocab (key.keeps (key.trie schema columns) cursor)) :
    (memoMask dst cache key e cursor fill).Meets schema columns vocab
      (key.keeps (key.trie schema columns) cursor) := by
  obtain ⟨m, e', hout, hm, hentry⟩ :=
    memoMask_cases hlen (he.masks cursor) hfill
  have he' : NarrowCache.Valid.EntryValid schema columns vocab key e' := by
    rcases hentry with rfl | rfl
    · exact he
    · exact ⟨he.recorded, he.trie, he.kind, holds_insert he.masks hm⟩
  rw [hout]
  exact ⟨hvalid.insert_entry he', hm.len, fun _ => hm, fun h => by cases h⟩

/-- The keys of the two kinds of trie rules. -/
def CacheKey.isFused : CacheKey → Bool
  | .fusedMember _ | .fusedRelationColumn _ => true
  | _ => false

theorem CacheKey.keeps_of_not_fused {key : CacheKey} (h : key.isFused = false) (trie : Trie)
    (cursor : Nat) (bytes : Bytes) :
    key.keeps trie cursor bytes = keepsTrie trie cursor key.kind bytes := by
  cases key <;> first | rfl | cases h

theorem CacheKey.keeps_of_fused {key : CacheKey} (h : key.isFused = true) (trie : Trie)
    (cursor : Nat) (bytes : Bytes) : key.keeps trie cursor bytes = keepsFused trie bytes := by
  cases key <;> first | rfl | cases h

theorem narrowTrie_meets (hlen : dst.len = vocab.maskLen)
    (hvalid : cache.Valid schema columns vocab) (key : CacheKey) (hrec : key.Recorded columns)
    (hkey : key.isFused = false) (pfx : Bytes) :
    (narrowTrie dst cache key pfx key.kind vocab (key.trie schema columns)).Meets schema columns
      vocab (keepsFrom (key.trie schema columns) key.kind pfx) := by
  have he := hvalid.entry hrec
  have hkeeps : key.keeps (key.trie schema columns) = fun cursor =>
      keepsTrie (key.trie schema columns) cursor key.kind := by
    funext cursor bytes
    exact key.keeps_of_not_fused hkey _ cursor bytes
  unfold narrowTrie
  dsimp only
  rw [he.trie, he.kind]
  have hreached : (if pfx.isEmpty then .stay (key.trie schema columns).root
      else walk (key.trie schema columns) (key.trie schema columns).root pfx) =
      walk (key.trie schema columns) (key.trie schema columns).root pfx := by
    cases pfx <;> rfl
  rw [hreached]
  unfold keepsFrom
  have hout := meets_pass hlen (hvalid.insert_entry he)
  cases walk (key.trie schema columns) (key.trie schema columns).root pfx with
  | stay cursor =>
    have hfill : Holds (fillTrie dst vocab (key.trie schema columns) cursor key.kind) vocab
        (key.keeps (key.trie schema columns) cursor) := by
      rw [hkeeps]
      exact holds_fillMask hlen _
    have hmeets := memoMask_meets hlen hvalid he cursor
      (fun dst => fillTrie dst vocab (key.trie schema columns) cursor key.kind) hfill
    rw [hkeeps] at hmeets
    exact hmeets
  | complete => exact hout
  | diverge => exact hout

theorem narrowFusedTrie_meets (hlen : dst.len = vocab.maskLen)
    (hvalid : cache.Valid schema columns vocab) (key : CacheKey) (hrec : key.Recorded columns)
    (hkey : key.isFused = true) :
    (narrowFusedTrie dst cache key vocab (key.trie schema columns)).Meets schema columns vocab
      (keepsFused (key.trie schema columns)) := by
  have hkind : key.kind = .ident := by cases key <;> first | rfl | cases hkey
  have he := hvalid.entry hrec
  rw [hkind] at he
  have hkeeps : ∀ cursor, key.keeps (key.trie schema columns) cursor =
      keepsFused (key.trie schema columns) := by
    intro cursor
    funext bytes
    exact key.keeps_of_fused hkey _ cursor bytes
  unfold narrowFusedTrie
  dsimp only
  rw [he.trie]
  have hfill : Holds (fillFusedTrie dst vocab (key.trie schema columns)) vocab
      (key.keeps (key.trie schema columns) (key.trie schema columns).root) := by
    rw [hkeeps]
    exact holds_fillMask hlen _
  have hmeets := memoMask_meets hlen hvalid he (key.trie schema columns).root
    (fun dst => fillFusedTrie dst vocab (key.trie schema columns)) hfill
  rw [hkeeps] at hmeets
  exact hmeets

/-- **The narrow at a position answers as without a memo.** -/
theorem narrowInto_meets (hlen : dst.len = vocab.maskLen)
    (hvalid : cache.Valid schema columns vocab) (pos : L2Position) (pfx : Bytes) :
    (narrowInto dst cache schema pos pfx columns vocab).Meets schema columns vocab
      (legalAt schema pos pfx columns) := by
  have hall : columns.take columns.length = columns := List.take_length
  cases pos with
  | none => exact meets_pass hlen hvalid
  | reValue tc =>
    cases tc with
    | boolean => exact meets_pass hlen hvalid
    | temporal => exact meets_pass hlen hvalid
    | numeric => exact withCache_meets hlen hvalid .numeric
    | str => exact withCache_meets hlen hvalid .str
  | sourceIdent => exact narrowTrie_meets hlen hvalid (.source) trivial rfl pfx
  | member cls => exact narrowTrie_meets hlen hvalid (.member cls) trivial rfl pfx
  | column =>
    have h := narrowTrie_meets hlen hvalid (.column columns.length) (Nat.le_refl _) rfl pfx
    rw [CacheKey.trie, CacheKey.names, hall] at h
    exact h
  | relationColumn =>
    have h := narrowTrie_meets hlen hvalid (.relationColumn columns.length)
      (Nat.le_refl _) rfl pfx
    rw [CacheKey.trie, CacheKey.names, hall] at h
    exact h

/-- **So does the narrow of a fused navigation dot.** -/
theorem narrowFusedInto_meets (hlen : dst.len = vocab.maskLen)
    (hvalid : cache.Valid schema columns vocab) (pos : L2Position) :
    (narrowFusedInto dst cache schema pos columns vocab).Meets schema columns vocab
      (legalFused schema pos columns) := by
  have hall : columns.take columns.length = columns := List.take_length
  cases pos with
  | member cls => exact narrowFusedTrie_meets hlen hvalid (.fusedMember cls) trivial rfl
  | relationColumn =>
    have h := narrowFusedTrie_meets hlen hvalid (.fusedRelationColumn columns.length)
      (Nat.le_refl _) rfl
    rw [CacheKey.trie, CacheKey.names, hall] at h
    exact h
  | _ => exact meets_pass hlen hvalid

end

end PureCard
