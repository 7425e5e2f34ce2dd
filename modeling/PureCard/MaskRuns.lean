/-
PureCard.MaskRuns — a program over masks, one public operation after
another (`src/mask.rs`).

`RawMask` is the source's struct: the words and the length side by side,
with nothing that ties them together. Indexing a word that is not there
panics, `none` here. `BitMask.raw` forgets the field that ties them, and
`step_raw` says the two machines move together, so no run panics.

What a run can spoil is the padding of the last word. `Tight` says it is
clear. Every operation keeps that but `copyFrom`, which moves whole words:
from a longer mask that shares the last word it moves bits at or beyond
the destination's own length. `masks_sound` is the condition, step by
step, under which the contract of the type holds along a run.

`iter_ones` computes ids in `u32`. Where the build checks arithmetic the
base of a word from `2^26` on is a panic, where it does not it wraps, and
no id that far can be set.
-/
import PureCard.Mask
import Mathlib.Logic.Function.Basic
import Mathlib.Data.List.GetD
import Mathlib.Data.List.Induction
import Mathlib.Algebra.Group.Nat.Defs

namespace PureCard

/-! ## The struct and its operations -/

/-- `BitMask` as the source declares it. -/
structure RawMask where
  words : List (BitVec 64)
  len : Nat
  deriving DecidableEq

/-- `u32` arithmetic with the exact result `n`: past the range it panics
in a build that checks, and wraps in one that does not. -/
def u32Arith (checks : Bool) (n : Nat) : Option UInt32 :=
  if checks = true ∧ 2 ^ 32 ≤ n then none else some (UInt32.ofNat n)

namespace RawMask

def withLen (len : Nat) : RawMask := ⟨List.replicate (wordCount len) 0#64, len⟩

/-- `self.words[word] = f(self.words[word])`. -/
def writeWord (m : RawMask) (word : Nat) (f : BitVec 64 → BitVec 64) : Option RawMask :=
  if word < m.words.length then some { m with words := m.words.modify word f } else none

def set (m : RawMask) (id : UInt32) : Option RawMask :=
  if m.len ≤ id.toNat then some m
  else
    let (word, bit) := locate id.toNat
    m.writeWord word (· ||| (1#64 <<< bit))

def clear (m : RawMask) (id : UInt32) : Option RawMask :=
  if m.len ≤ id.toNat then some m
  else
    let (word, bit) := locate id.toNat
    m.writeWord word (· &&& ~~~(1#64 <<< bit))

def test (m : RawMask) (id : UInt32) : Option Bool :=
  if m.len ≤ id.toNat then some false
  else
    let (word, bit) := locate id.toNat
    m.words[word]?.map fun w : BitVec 64 => (w >>> bit) &&& 1#64 == 1#64

def clearAll (m : RawMask) : RawMask := { m with words := m.words.map fun _ => 0#64 }

def intersect (m other : RawMask) : RawMask :=
  { m with words := zipInto (· &&& ·) m.words other.words }

def copyFrom (m other : RawMask) : RawMask :=
  { m with words := zipInto (fun _ src => src) m.words other.words }

/-- The ids of one word's set bits. -/
def wordOnes (checks : Bool) (word : Nat) (bits : BitVec 64) : Option (List UInt32) := do
  let base ← u32Arith checks (word % 2 ^ 32 * 64)
  ((List.range 64).filter fun bit => bits &&& (1#64 <<< bit) != 0#64).mapM fun bit =>
    u32Arith checks (base.toNat + bit)

/-- The ids of every set bit, word by word. -/
def iterOnes (checks : Bool) (m : RawMask) : Option (List UInt32) :=
  (m.words.zipIdx.mapM fun (bits, word) => wordOnes checks word bits).map List.flatten

end RawMask

/-! ## Programs -/

/-- One statement of a program whose variables are named by `ν`. -/
inductive MaskOp (ν : Type) where
  | withLen (x : ν) (len : Nat)
  | clone (x y : ν)
  | set (x : ν) (id : UInt32)
  | clear (x : ν) (id : UInt32)
  | clearAll (x : ν)
  | intersect (x y : ν)
  | copyFrom (x y : ν)

section Programs

variable {ν : Type} [DecidableEq ν]

/-- The masks the variables hold before the first statement. -/
def RawMask.store : ν → RawMask := fun _ => .withLen 0

def MaskOp.step (s : ν → RawMask) : MaskOp ν → Option (ν → RawMask)
  | .withLen x len => some (Function.update s x (.withLen len))
  | .clone x y => some (Function.update s x (s y))
  | .set x id => ((s x).set id).map (Function.update s x)
  | .clear x id => ((s x).clear id).map (Function.update s x)
  | .clearAll x => some (Function.update s x (s x).clearAll)
  | .intersect x y => some (Function.update s x ((s x).intersect (s y)))
  | .copyFrom x y => some (Function.update s x ((s x).copyFrom (s y)))

/-- The store after a program; `none` when a statement panics. -/
def MaskOp.run (ops : List (MaskOp ν)) : Option (ν → RawMask) :=
  ops.foldlM MaskOp.step RawMask.store

/-- The same statements over masks that carry their word count. -/
def MaskOp.apply (s : ν → BitMask) : MaskOp ν → ν → BitMask
  | .withLen x len => Function.update s x (.withLen len)
  | .clone x y => Function.update s x (s y)
  | .set x id => Function.update s x ((s x).set id.toNat)
  | .clear x id => Function.update s x ((s x).clear id.toNat)
  | .clearAll x => Function.update s x (s x).clearAll
  | .intersect x y => Function.update s x ((s x).intersect (s y))
  | .copyFrom x y => Function.update s x ((s x).copyFrom (s y))

def BitMask.store : ν → BitMask := fun _ => .withLen 0

def MaskOp.after (ops : List (MaskOp ν)) : ν → BitMask := ops.foldl MaskOp.apply BitMask.store

end Programs

/-! ## No statement panics -/

namespace BitMask

/-- The mask as the source's struct. -/
def raw (m : BitMask) : RawMask := ⟨m.words, m.len⟩

@[simp] theorem raw_words (m : BitMask) : m.raw.words = m.words := rfl

@[simp] theorem raw_len (m : BitMask) : m.raw.len = m.len := rfl

theorem raw_inj {m n : BitMask} : m.raw = n.raw ↔ m = n := by
  cases m
  cases n
  simp [raw]

@[simp] theorem raw_set (m : BitMask) (id : UInt32) :
    m.raw.set id = some (m.set id.toNat).raw := by
  by_cases h : m.len ≤ id.toNat
  · simp [RawMask.set, set, h]
  · have hw : id.toNat / 64 < m.words.length := m.word_lt (Nat.lt_of_not_le h)
    simp [RawMask.set, RawMask.writeWord, set, h, locate, hw, raw]

@[simp] theorem raw_clear (m : BitMask) (id : UInt32) :
    m.raw.clear id = some (m.clear id.toNat).raw := by
  by_cases h : m.len ≤ id.toNat
  · simp [RawMask.clear, clear, h]
  · have hw : id.toNat / 64 < m.words.length := m.word_lt (Nat.lt_of_not_le h)
    simp [RawMask.clear, RawMask.writeWord, clear, h, locate, hw, raw]

@[simp] theorem raw_test (m : BitMask) (id : UInt32) :
    m.raw.test id = some (m.test id.toNat) := by
  by_cases h : m.len ≤ id.toNat
  · simp [RawMask.test, test, h]
  · have hw : id.toNat / 64 < m.words.length := m.word_lt (Nat.lt_of_not_le h)
    simp [RawMask.test, test, h, locate, hw, List.getD_eq_getElem?_getD]

/-! ## The ids a mask yields -/

theorem mapM_eq_some {α β : Type} {f : α → Option β} {g : α → β} :
    ∀ {l : List α}, (∀ x ∈ l, f x = some (g x)) → l.mapM f = some (l.map g)
  | [], _ => rfl
  | x :: l, h => by
      rw [List.mapM_cons, h x (by simp), mapM_eq_some fun y hy => h y (by simp [hy])]
      rfl

theorem mapM_eq_none {α β : Type} {f : α → Option β} {x : α} :
    ∀ {l : List α}, x ∈ l → f x = none → l.mapM f = none
  | y :: l, hx, hf => by
      rw [List.mapM_cons]
      rcases List.mem_cons.mp hx with rfl | hx
      · rw [hf]
        rfl
      · rw [mapM_eq_none hx hf]
        cases f y <;> rfl

/-- The set bits of a list of words, as positions in ascending order. -/
def onesOf (words : List (BitVec 64)) : List Nat :=
  (List.range (64 * words.length)).filter fun k => (words.getD (k / 64) 0#64).getLsbD (k % 64)

theorem onesOf_concat (words : List (BitVec 64)) (w : BitVec 64) :
    onesOf (words ++ [w]) =
      onesOf words ++ ((List.range 64).filter w.getLsbD).map (64 * words.length + ·) := by
  have hlen : 64 * (words ++ [w]).length = 64 * words.length + 64 := by
    rw [List.length_append, List.length_singleton]
    omega
  rw [onesOf, hlen, List.range_add, List.filter_append, List.filter_map]
  congr 1
  · apply List.filter_congr
    intro k hk
    have hword : k / 64 < words.length := by
      have hk' : k < 64 * words.length := List.mem_range.mp hk
      omega
    rw [List.getD_append _ _ _ _ hword]
  · congr 1
    apply List.filter_congr
    intro k hk
    have hk' : k < 64 := List.mem_range.mp hk
    have hdiv : (64 * words.length + k) / 64 = words.length := by omega
    have hmod : (64 * words.length + k) % 64 = k := by omega
    simp [Function.comp, hdiv, hmod]

/-- What one word yields when its arithmetic does not panic: the wrapped
base and the position add up to the wrapped id. -/
theorem wordOnes_eq {checks : Bool} {word : Nat} (h : checks = true → word < 2 ^ 26)
    (bits : BitVec 64) :
    RawMask.wordOnes checks word bits =
      some (((List.range 64).filter bits.getLsbD).map fun bit =>
        UInt32.ofNat (64 * word + bit)) := by
  have hbase : u32Arith checks (word % 2 ^ 32 * 64) = some (UInt32.ofNat (64 * word)) := by
    rw [u32Arith, if_neg]
    · congr 1
      apply UInt32.toNat.inj
      simp only [UInt32.toNat_ofNat']
      omega
    · intro hover
      have hlt : word < 2 ^ 26 := h hover.1
      omega
  have hbits : (fun bit => bits &&& (1#64 <<< bit) != 0#64) = fun bit => bits.getLsbD bit := by
    funext bit
    rw [Bool.eq_iff_iff, bne_iff_ne]
    constructor
    · intro hne
      by_contra hclear
      apply hne
      apply BitVec.eq_of_getLsbD_eq
      intro j hj
      rw [BitVec.getLsbD_and, getLsbD_one_shiftLeft _ _ hj]
      by_cases hjb : j = bit
      · simp_all
      · simp [hjb]
    · intro hset hzero
      have hlt : bit < 64 := BitVec.lt_of_getLsbD hset
      have hbit := congrArg (·.getLsbD bit) hzero
      rw [BitVec.getLsbD_and, getLsbD_one_shiftLeft _ _ hlt, hset] at hbit
      simp at hbit
  rw [RawMask.wordOnes, hbase, hbits]
  apply mapM_eq_some
  intro bit hbit
  have hlt : bit < 64 := List.mem_range.mp (List.mem_filter.mp hbit).1
  rw [u32Arith, if_neg]
  · congr 1
    apply UInt32.toNat.inj
    simp only [UInt32.toNat_ofNat']
    omega
  · intro hover
    have hword : word < 2 ^ 26 := h hover.1
    have hle : (UInt32.ofNat (64 * word)).toNat ≤ 64 * word := by
      rw [UInt32.toNat_ofNat']
      exact Nat.mod_le _ _
    omega

theorem iterOnes_eq {checks : Bool} (m : RawMask) (h : checks = true → m.words.length ≤ 2 ^ 26) :
    m.iterOnes checks = some ((onesOf m.words).map UInt32.ofNat) := by
  have hwords : m.words.zipIdx.mapM (fun (bits, word) => RawMask.wordOnes checks word bits) =
      some (m.words.zipIdx.map fun (bits, word) =>
        ((List.range 64).filter bits.getLsbD).map fun bit => UInt32.ofNat (64 * word + bit)) := by
    apply mapM_eq_some
    intro x hx
    have hlt : x.2 < m.words.length := by
      have hidx := List.snd_lt_of_mem_zipIdx hx
      simpa using hidx
    apply wordOnes_eq
    intro hc
    have hle := h hc
    omega
  rw [RawMask.iterOnes, hwords]
  show some _ = some _
  congr 1
  generalize m.words = words
  induction words using List.reverseRecOn with
  | nil => rfl
  | append_singleton words w ih =>
    rw [List.zipIdx_append, List.map_append, List.flatten_append, ih, onesOf_concat,
      List.map_append, List.map_map]
    simp [List.zipIdx, Function.comp]

/-- Past `2^26` words the base of a word is a panic in a build that checks. -/
theorem iterOnes_none {m : RawMask} (h : 2 ^ 26 < m.words.length) : m.iterOnes true = none := by
  have hmem : (m.words[2 ^ 26], 2 ^ 26) ∈ m.words.zipIdx := by
    rw [List.mem_zipIdx_iff_getElem?]
    exact List.getElem?_eq_getElem h
  have hpanic : RawMask.wordOnes true (2 ^ 26) m.words[2 ^ 26] = none := by
    rw [RawMask.wordOnes, show u32Arith true (2 ^ 26 % 2 ^ 32 * 64) = none by decide]
    rfl
  rw [RawMask.iterOnes, mapM_eq_none hmem hpanic]
  rfl

/-! ## Clear padding -/

/-- No bit is set at or beyond the length, nor past the `u32` ids. -/
def Tight (m : BitMask) : Prop := ∀ k, m.len ≤ k ∨ 2 ^ 32 ≤ k → m.bit k = false

theorem tight_withLen (n : Nat) : (withLen n).Tight := by
  intro k _
  exact bit_withLen n k

theorem Tight.set {m : BitMask} (h : m.Tight) (id : UInt32) : (m.set id.toNat).Tight := by
  intro k hk
  rw [len_set] at hk
  rw [bit_set, h k hk]
  have hid : id.toNat < 2 ^ 32 := id.toNat_lt
  have hne : id.toNat < m.len → k ≠ id.toNat := by omega
  by_cases hlt : id.toNat < m.len
  · simp [hne hlt]
  · simp [hlt]

theorem Tight.clear {m : BitMask} (h : m.Tight) (id : Nat) : (m.clear id).Tight := by
  intro k hk
  rw [len_clear] at hk
  simp [h k hk]

theorem tight_clearAll (m : BitMask) : m.clearAll.Tight := by
  intro k _
  exact bit_clearAll m k

theorem Tight.intersect {m : BitMask} (h : m.Tight) (n : BitMask) : (m.intersect n).Tight := by
  intro k hk
  rw [len_intersect] at hk
  simp [bit_intersect, h k hk]

/-- A whole-word copy leaves the padding clear when the source has no id
between the destination's length and the end of its last word. -/
theorem Tight.copyFrom {m n : BitMask} (hm : m.Tight) (hn : n.Tight)
    (h : ∀ id : UInt32, m.len ≤ id.toNat → id.toNat < 64 * wordCount m.len →
      n.test id.toNat = false) : (m.copyFrom n).Tight := by
  intro k hk
  rw [len_copyFrom] at hk
  rw [bit_copyFrom]
  split
  · rename_i hword
    by_cases hlarge : n.len ≤ k ∨ 2 ^ 32 ≤ k
    · exact hn k hlarge
    · have hlt : k < n.len ∧ k < 2 ^ 32 := by omega
      have hlen : m.words.length = wordCount m.len := m.words_len
      have hround : (UInt32.ofNat k).toNat = k := by
        rw [UInt32.toNat_ofNat']
        exact Nat.mod_eq_of_lt hlt.2
      have htest := h (UInt32.ofNat k) (by omega) (by omega)
      rw [hround, test_eq] at htest
      simpa [hlt.1] using htest
  · exact hm k hk

theorem mem_onesOf {m : BitMask} {k : Nat} : k ∈ onesOf m.words ↔ m.bit k = true := by
  rw [onesOf, List.mem_filter, List.mem_range]
  show _ ∧ m.bit k = true ↔ _
  constructor
  · exact And.right
  · intro hbit
    refine ⟨?_, hbit⟩
    by_contra hout
    have hnone : m.words[k / 64]? = none := List.getElem?_eq_none (by omega)
    simp [bit, List.getD_eq_getElem?_getD, hnone] at hbit

/-- The ids of a mask with clear padding, read through the `u32` cast. -/
theorem Tight.mem_ids {m : BitMask} (h : m.Tight) (id : UInt32) :
    id ∈ (onesOf m.words).map UInt32.ofNat ↔ m.test id.toNat = true := by
  rw [List.mem_map]
  constructor
  · rintro ⟨k, hk, rfl⟩
    have hbit : m.bit k = true := mem_onesOf.mp hk
    have hlt : k < m.len ∧ k < 2 ^ 32 := by
      by_contra hout
      have hclear := h k (by omega)
      simp [hclear] at hbit
    have hround : (UInt32.ofNat k).toNat = k := by
      rw [UInt32.toNat_ofNat']
      exact Nat.mod_eq_of_lt hlt.2
    rw [hround, test_eq]
    simp [hlt.1, hbit]
  · intro htest
    rw [test_eq, Bool.and_eq_true] at htest
    refine ⟨id.toNat, mem_onesOf.mpr htest.2, ?_⟩
    exact UInt32.ofNat_toNat

theorem Tight.ids_sorted {m : BitMask} (h : m.Tight) :
    ((onesOf m.words).map UInt32.ofNat).Pairwise (· < ·) := by
  rw [List.pairwise_map]
  have hsorted : (onesOf m.words).Pairwise (· < ·) := by
    rw [onesOf]
    exact List.Pairwise.filter _ List.pairwise_lt_range
  refine hsorted.imp_of_mem ?_
  intro i j _ hj hij
  have hjlt : j < 2 ^ 32 := by
    by_contra hout
    have hclear := h j (by omega)
    rw [mem_onesOf, hclear] at hj
    cases hj
  rw [UInt32.lt_iff_toNat_lt, UInt32.toNat_ofNat', UInt32.toNat_ofNat']
  omega

/-- Masks of one length with clear padding are equal when they test equal. -/
theorem Tight.eq_iff {m n : BitMask} (hm : m.Tight) (hn : n.Tight) (hlen : m.len = n.len) :
    m = n ↔ ∀ id : UInt32, id.toNat < m.len → m.test id.toNat = n.test id.toNat := by
  constructor
  · intro heq id _
    rw [heq]
  · intro htest
    have hbit : ∀ k, m.bit k = n.bit k := by
      intro k
      by_cases hk : m.len ≤ k ∨ 2 ^ 32 ≤ k
      · rw [hm k hk, hn k (by omega)]
      · have hround : (UInt32.ofNat k).toNat = k := by
          rw [UInt32.toNat_ofNat']
          exact Nat.mod_eq_of_lt (by omega)
        have hid := htest (UInt32.ofNat k) (by omega)
        have hlt : k < m.len ∧ k < n.len := by omega
        rw [hround, test_eq, test_eq] at hid
        simpa [hlt] using hid
    have hwords : m.words = n.words := by
      apply List.ext_getElem
      · rw [m.words_len, n.words_len, hlen]
      · intro i hi hi'
        apply BitVec.eq_of_getLsbD_eq
        intro j hj
        have hk := hbit (64 * i + j)
        have hdiv : (64 * i + j) / 64 = i := by omega
        have hmod : (64 * i + j) % 64 = j := by omega
        simpa [bit, hdiv, hmod, hi, hi', List.getD_eq_getElem?_getD] using hk
    rw [← raw_inj, raw, raw, hwords, hlen]

end BitMask

section Programs

variable {ν : Type} [DecidableEq ν]

/-- A store of masks as a store of structs. -/
def rawStore (s : ν → BitMask) : ν → RawMask := fun x => (s x).raw

omit [DecidableEq ν] in
@[simp] theorem rawStore_apply (s : ν → BitMask) (x : ν) : rawStore s x = (s x).raw := rfl

@[simp] theorem rawStore_update (s : ν → BitMask) (x : ν) (m : BitMask) :
    rawStore (Function.update s x m) = Function.update (rawStore s) x m.raw := by
  funext y
  by_cases h : y = x
  · subst h
    simp
  · simp [h]

/-- One statement: the struct's words are always there to be indexed. -/
theorem step_raw (s : ν → BitMask) (op : MaskOp ν) :
    op.step (rawStore s) = some (rawStore (op.apply s)) := by
  cases op <;> simp [MaskOp.step, MaskOp.apply] <;> rfl

theorem run_raw (ops : List (MaskOp ν)) :
    MaskOp.run ops = some (rawStore (MaskOp.after ops)) := by
  have hrun : ∀ (ops : List (MaskOp ν)) (s : ν → BitMask),
      ops.foldlM MaskOp.step (rawStore s) = some (rawStore (ops.foldl MaskOp.apply s)) := by
    intro ops
    induction ops with
    | nil => intro s; rfl
    | cons op ops ih =>
      intro s
      rw [List.foldlM_cons, step_raw]
      exact ih (op.apply s)
  exact hrun ops BitMask.store

/-! ## The contract along a run -/

/-- What the type promises of every mask a program holds. -/
structure MaskContract (checks : Bool) (s : ν → RawMask) : Prop where
  test_out : ∀ x (id : UInt32), (s x).len ≤ id.toNat → (s x).test id = some false
  ones : ∀ x, ∃ ids, (s x).iterOnes checks = some ids ∧ ids.Pairwise (· < ·) ∧
    (∀ id ∈ ids, id.toNat < (s x).len) ∧ ∀ id, id ∈ ids ↔ (s x).test id = some true
  eq_iff : ∀ x y, (s x).len = (s y).len →
    (s x = s y ↔ ∀ id : UInt32, id.toNat < (s x).len → (s x).test id = (s y).test id)

/-- A statement that leaves the contract standing: no copy brings an id
into the padding, and no mask outgrows the `u32` ids in a build that
checks its arithmetic. -/
def MaskOp.Clean (checks : Bool) (s : ν → RawMask) : MaskOp ν → Prop
  | .withLen _ len => checks = true → len ≤ 2 ^ 32
  | .copyFrom x y => ∀ id : UInt32, (s x).len ≤ id.toNat →
      id.toNat < 64 * wordCount (s x).len → (s y).test id = some false
  | _ => True

/-- What a clean statement keeps. -/
def Kept (checks : Bool) (s : ν → BitMask) : Prop :=
  ∀ x, (s x).Tight ∧ (checks = true → (s x).len ≤ 2 ^ 32)

omit [DecidableEq ν] in
theorem Kept.contract {checks : Bool} {s : ν → BitMask} (h : Kept checks s) :
    MaskContract checks (rawStore s) where
  test_out x id hid := by
    rw [rawStore_apply, BitMask.raw_test, BitMask.test_of_len_le hid]
  ones x := by
    have htight := (h x).1
    refine ⟨_, BitMask.iterOnes_eq _ ?_, htight.ids_sorted, ?_, ?_⟩
    · intro hc
      have hlen := (h x).2 hc
      have hwords : (s x).words.length = wordCount (s x).len := (s x).words_len
      rw [rawStore_apply, BitMask.raw_words, hwords, wordCount]
      omega
    · intro id hid
      by_contra hout
      have htest := (htight.mem_ids id).mp hid
      rw [BitMask.test_of_len_le (Nat.le_of_not_lt hout)] at htest
      cases htest
    · intro id
      rw [rawStore_apply, BitMask.raw_test, Option.some.injEq]
      exact htight.mem_ids id
  eq_iff x y hlen := by
    simp only [rawStore_apply, BitMask.raw_inj, BitMask.raw_len, BitMask.raw_test,
      Option.some.injEq]
    exact (h x).1.eq_iff (h y).1 hlen

theorem Kept.update {checks : Bool} {s : ν → BitMask} (h : Kept checks s) (x : ν) {m : BitMask}
    (htight : m.Tight) (hlen : checks = true → m.len ≤ 2 ^ 32) :
    Kept checks (Function.update s x m) := by
  intro y
  by_cases hy : y = x
  · subst hy
    rw [Function.update_self]
    exact ⟨htight, hlen⟩
  · rw [Function.update_of_ne hy]
    exact h y

theorem Kept.apply {checks : Bool} {s : ν → BitMask} (h : Kept checks s) {op : MaskOp ν}
    (hop : op.Clean checks (rawStore s)) : Kept checks (op.apply s) := by
  cases op with
  | withLen x len => exact h.update x (BitMask.tight_withLen len) hop
  | clone x y => exact h.update x (h y).1 (h y).2
  | set x id =>
    refine h.update x ((h x).1.set id) ?_
    rw [BitMask.len_set]
    exact (h x).2
  | clear x id =>
    refine h.update x ((h x).1.clear id.toNat) ?_
    rw [BitMask.len_clear]
    exact (h x).2
  | clearAll x => exact h.update x (BitMask.tight_clearAll _) (h x).2
  | intersect x y => exact h.update x ((h x).1.intersect _) (h x).2
  | copyFrom x y =>
    refine h.update x ((h x).1.copyFrom (h y).1 ?_) (h x).2
    intro id hlow hhigh
    have htest := hop id hlow hhigh
    rwa [rawStore_apply, BitMask.raw_test, Option.some.injEq] at htest

/-- A statement that is not clean breaks the contract at once. -/
theorem clean_of_contract {checks : Bool} {s : ν → BitMask} {op : MaskOp ν}
    (h : MaskContract checks (rawStore (op.apply s))) : op.Clean checks (rawStore s) := by
  cases op with
  | withLen x len =>
    intro hc
    obtain ⟨ids, hids, -⟩ := h.ones x
    rw [rawStore_apply, MaskOp.apply, Function.update_self, hc] at hids
    by_contra hlarge
    have hwords : 2 ^ 26 < (BitMask.withLen len).raw.words.length := by
      rw [BitMask.raw_words, BitMask.words_len, BitMask.len_withLen, wordCount]
      omega
    rw [BitMask.iterOnes_none hwords] at hids
    cases hids
  | copyFrom x y =>
    intro id hlow hhigh
    obtain ⟨ids, hids, -, hbound, -⟩ := h.ones x
    simp only [rawStore_apply, MaskOp.apply, Function.update_self, BitMask.raw_len,
      BitMask.len_copyFrom] at hids hbound
    rw [rawStore_apply, BitMask.raw_test, Option.some.injEq]
    by_contra hset
    have hbit : ((s x).copyFrom (s y)).bit id.toNat = true := by
      rw [Bool.not_eq_false, BitMask.test_eq, Bool.and_eq_true, decide_eq_true_eq] at hset
      have hx : id.toNat / 64 < (s x).words.length := by
        rw [(s x).words_len]
        rw [rawStore_apply, BitMask.raw_len] at hhigh
        omega
      rw [BitMask.bit_copyFrom, if_pos ⟨hx, (s y).word_lt hset.1⟩]
      exact hset.2
    have hsome : checks = true → ((s x).copyFrom (s y)).raw.words.length ≤ 2 ^ 26 := by
      intro hc
      by_contra hlarge
      rw [hc, BitMask.iterOnes_none (Nat.lt_of_not_le hlarge)] at hids
      cases hids
    rw [BitMask.iterOnes_eq _ hsome, Option.some.injEq] at hids
    have hmem : id ∈ ids := by
      rw [← hids, List.mem_map]
      exact ⟨id.toNat, BitMask.mem_onesOf.mpr hbit, UInt32.ofNat_toNat⟩
    have hin := hbound id hmem
    rw [rawStore_apply, BitMask.raw_len] at hlow
    omega
  | _ => trivial

theorem after_concat (before : List (MaskOp ν)) (op : MaskOp ν) :
    MaskOp.after (before ++ [op]) = op.apply (MaskOp.after before) := by
  simp [MaskOp.after]

/-- No program panics, and the contract stands in every state it reaches
exactly when each of its statements is clean where it runs. -/
theorem masks_sound (checks : Bool) (ops : List (MaskOp ν)) :
    (∀ before, before <+: ops → ∃ s, MaskOp.run before = some s ∧ MaskContract checks s) ↔
      ∀ before op, before ++ [op] <+: ops →
        ∃ s, MaskOp.run before = some s ∧ op.Clean checks s := by
  simp only [run_raw, Option.some.injEq, exists_eq_left']
  constructor
  · intro hall before op hpre
    apply clean_of_contract
    rw [← after_concat]
    exact hall _ hpre
  · intro hclean before hpre
    apply Kept.contract
    induction before using List.reverseRecOn with
    | nil =>
      intro x
      exact ⟨BitMask.tight_withLen 0, fun _ => Nat.zero_le _⟩
    | append_singleton before op ih =>
      rw [after_concat]
      have hbefore : before <+: ops := (List.prefix_append before [op]).trans hpre
      exact (ih hbefore).apply (hclean before op hpre)

end Programs

/-! ## The copy that sets a padding bit -/

/-- Mask `0` spans 64 ids and holds the last; mask `1`, of one id, copies
it; mask `2` is a fresh one of that length. -/
def paddedCopy : List (MaskOp Nat) :=
  [.withLen 0 64, .set 0 63, .withLen 1 1, .copyFrom 1 0, .withLen 2 1]

/-- The copy yields the id 63 out of a mask of length 1, and differs from
a mask that tests equal. -/
theorem padding_copied :
    (∃ s, MaskOp.run paddedCopy = some s ∧ (s 1).len = 1 ∧ (s 1).iterOnes true = some [63] ∧
      (s 1).len = (s 2).len ∧ (s 1).test 0 = (s 2).test 0 ∧ s 1 ≠ s 2) ∧
    ¬ ∀ (checks : Bool) (ops : List (MaskOp Nat)),
      ∃ s, MaskOp.run ops = some s ∧ MaskContract checks s := by
  have hrun : ∃ s, MaskOp.run paddedCopy = some s ∧ (s 1).len = 1 ∧
      (s 1).iterOnes true = some [63] ∧ (s 1).len = (s 2).len ∧
      (s 1).test 0 = (s 2).test 0 ∧ s 1 ≠ s 2 :=
    ⟨_, rfl, by decide +kernel⟩
  refine ⟨hrun, ?_⟩
  intro hall
  obtain ⟨s, hs, hlen, hones, -⟩ := hrun
  obtain ⟨s', hs', hcontract⟩ := hall true paddedCopy
  rw [hs, Option.some.injEq] at hs'
  subst hs'
  obtain ⟨ids, hids, -, hbound, -⟩ := hcontract.ones 1
  rw [hones, Option.some.injEq] at hids
  have hin := hbound 63 (by rw [← hids]; simp)
  rw [hlen] at hin
  exact absurd hin (by decide)

end PureCard
