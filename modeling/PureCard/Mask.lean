/-
PureCard.Mask — the dense bitmask over token ids (`src/mask.rs`).

A mask of length `len` is `ceil(len / 64)` words of 64 bits; bit `id`
lives in word `id / 64` at position `id % 64`. The word count is a field
of the structure, so a mask whose backing words do not fit its length
cannot be built and no operation indexes out of range. Nothing is said
about the padding bits of the last word: `copyFrom` moves whole words.

The per-step path only ever combines masks of one length, and there a
mask is the set `{id | test id}`: `test_set`, `test_clear`,
`test_intersect` and `copyFrom_eq` are what the masking proofs use.
-/
import PureCard.Bytes
import Mathlib.Tactic.Common

namespace PureCard

/-- The number of 64-bit words that hold `len` bits. -/
def wordCount (len : Nat) : Nat := (len + 63) / 64

/-- A bitmask over the token ids below `len`. -/
structure BitMask where
  words : List (BitVec 64)
  len : Nat
  words_len : words.length = wordCount len
  deriving DecidableEq

/-- The word index and the in-word position of `id`. -/
def locate (id : Nat) : Nat × Nat := (id / 64, id % 64)

/-- The in-place loop `for (dst, src) in dst.zip(src)`: the overlap is
combined, the rest of `dst` is left alone. -/
def zipInto {α β : Type} (f : α → β → α) : List α → List β → List α
  | x :: xs, y :: ys => f x y :: zipInto f xs ys
  | xs, [] => xs
  | [], _ :: _ => []

@[simp] theorem length_zipInto {α β : Type} (f : α → β → α) :
    ∀ (xs : List α) (ys : List β), (zipInto f xs ys).length = xs.length
  | [], [] => rfl
  | [], _ :: _ => rfl
  | _ :: _, [] => rfl
  | _ :: xs, _ :: ys => by simp [zipInto, length_zipInto f xs ys]

namespace BitMask

def withLen (len : Nat) : BitMask where
  words := List.replicate (wordCount len) 0#64
  len := len
  words_len := by simp

def set (m : BitMask) (id : Nat) : BitMask :=
  if m.len ≤ id then m
  else
    let (word, bit) := locate id
    { m with
      words := m.words.modify word (· ||| (1#64 <<< bit))
      words_len := by simp [m.words_len] }

def clear (m : BitMask) (id : Nat) : BitMask :=
  if m.len ≤ id then m
  else
    let (word, bit) := locate id
    { m with
      words := m.words.modify word (· &&& ~~~(1#64 <<< bit))
      words_len := by simp [m.words_len] }

def test (m : BitMask) (id : Nat) : Bool :=
  if m.len ≤ id then false
  else
    let (word, bit) := locate id
    ((m.words.getD word 0#64) >>> bit) &&& 1#64 == 1#64

def clearAll (m : BitMask) : BitMask :=
  { m with words := m.words.map fun _ => 0#64, words_len := by simp [m.words_len] }

def intersect (m other : BitMask) : BitMask :=
  { m with
    words := zipInto (· &&& ·) m.words other.words
    words_len := by simp [m.words_len] }

def copyFrom (m other : BitMask) : BitMask :=
  { m with
    words := zipInto (fun _ src => src) m.words other.words
    words_len := by simp [m.words_len] }

/-! ## What the operations do to `test` -/

theorem shiftRight_and_one (w : BitVec 64) (i : Nat) :
    ((w >>> i) &&& 1#64 == 1#64) = w.getLsbD i := by
  rw [Bool.eq_iff_iff, beq_iff_eq]
  constructor
  · intro h
    have h0 := congrArg (·.getLsbD 0) h
    simpa [BitVec.getLsbD_and, BitVec.getLsbD_ushiftRight] using h0
  · intro h
    apply BitVec.eq_of_getLsbD_eq
    intro j hj
    by_cases hj0 : j = 0
    · subst hj0
      simpa [BitVec.getLsbD_and, BitVec.getLsbD_ushiftRight] using h
    · simp [BitVec.getLsbD_and, BitVec.getLsbD_one, hj0]

/-- Bit `id` of the backing words, whatever the length: a padding bit of
the last word when `id` is at or beyond it. -/
def bit (m : BitMask) (id : Nat) : Bool := (m.words.getD (id / 64) 0#64).getLsbD (id % 64)

theorem test_eq (m : BitMask) (id : Nat) : m.test id = (decide (id < m.len) && m.bit id) := by
  unfold test locate bit
  by_cases h : m.len ≤ id
  · simp [h, Nat.not_lt.mpr h]
  · simp only [h, if_false, shiftRight_and_one]
    simp [Nat.lt_of_not_le h]

theorem test_of_len_le {m : BitMask} {id : Nat} (h : m.len ≤ id) : m.test id = false := by
  simp [test, h]

/-- A word index in range of a mask's length is in range of its words. -/
theorem word_lt (m : BitMask) {id : Nat} (h : id < m.len) : id / 64 < m.words.length := by
  rw [m.words_len, wordCount]
  omega

@[simp] theorem len_withLen (n : Nat) : (withLen n).len = n := rfl

@[simp] theorem len_set (m : BitMask) (id : Nat) : (m.set id).len = m.len := by
  unfold set; split <;> rfl

@[simp] theorem len_clear (m : BitMask) (id : Nat) : (m.clear id).len = m.len := by
  unfold clear; split <;> rfl

@[simp] theorem len_clearAll (m : BitMask) : m.clearAll.len = m.len := rfl

@[simp] theorem len_intersect (m n : BitMask) : (m.intersect n).len = m.len := rfl

@[simp] theorem len_copyFrom (m n : BitMask) : (m.copyFrom n).len = m.len := rfl

@[simp] theorem bit_withLen (n id : Nat) : (withLen n).bit id = false := by
  simp only [bit, withLen, List.getD_eq_getElem?_getD, List.getElem?_replicate]
  split <;> simp

@[simp] theorem test_withLen (n id : Nat) : (withLen n).test id = false := by
  simp [test_eq]

@[simp] theorem bit_clearAll (m : BitMask) (id : Nat) : m.clearAll.bit id = false := by
  simp only [bit, clearAll, List.getD_eq_getElem?_getD, List.getElem?_map]
  cases m.words[id / 64]? <;> simp

@[simp] theorem test_clearAll (m : BitMask) (id : Nat) : m.clearAll.test id = false := by
  simp [test_eq]

/-- Writing one word changes the bits of that word only. -/
theorem getD_modify (ws : List (BitVec 64)) (f : BitVec 64 → BitVec 64) {i : Nat} (j : Nat)
    (hi : i < ws.length) :
    (ws.modify i f).getD j 0#64 = if i = j then f (ws.getD j 0#64) else ws.getD j 0#64 := by
  simp only [List.getD_eq_getElem?_getD, List.getElem?_modify]
  by_cases h : i = j
  · subst h
    have hsome : ws[i]? = some ws[i] := List.getElem?_eq_getElem hi
    simp [hsome]
  · cases ws[j]? <;> simp [h]

/-- A one-bit word has its one bit at the position it was shifted to. -/
theorem getLsbD_one_shiftLeft (i j : Nat) (hj : j < 64) :
    (1#64 <<< i).getLsbD j = decide (j = i) := by
  rw [BitVec.getLsbD_shiftLeft, BitVec.getLsbD_one]
  by_cases hl : j < i
  · have hne : j ≠ i := by omega
    simp [hl, hne]
  · have hsub : (0 = j - i) ↔ j = i := by omega
    simp [hl, hj]
    omega

@[simp] theorem bit_set (m : BitMask) (id k : Nat) :
    (m.set id).bit k = (m.bit k || (decide (id < m.len) && decide (k = id))) := by
  by_cases hid : m.len ≤ id
  · simp [set, hid, Nat.not_lt.mpr hid]
  · have hlt : id < m.len := Nat.lt_of_not_le hid
    simp only [bit, set, hid, if_false, locate]
    rw [getD_modify _ _ _ (m.word_lt hlt)]
    by_cases hw : id / 64 = k / 64
    · have hsame : (k % 64 = id % 64) ↔ k = id := by omega
      have hk : k % 64 < 64 := Nat.mod_lt _ (by decide)
      simp [hw, BitVec.getLsbD_or, getLsbD_one_shiftLeft _ _ hk, hsame, hlt]
    · have hne : k ≠ id := fun h => hw (by rw [h])
      simp [hw, hne]

@[simp] theorem bit_clear (m : BitMask) (id k : Nat) :
    (m.clear id).bit k = (m.bit k && !(decide (id < m.len) && decide (k = id))) := by
  by_cases hid : m.len ≤ id
  · simp [clear, hid, Nat.not_lt.mpr hid]
  · have hlt : id < m.len := Nat.lt_of_not_le hid
    simp only [bit, clear, hid, if_false, locate]
    rw [getD_modify _ _ _ (m.word_lt hlt)]
    by_cases hw : id / 64 = k / 64
    · have hsame : (k % 64 = id % 64) ↔ k = id := by omega
      have hk : k % 64 < 64 := Nat.mod_lt _ (by decide)
      simp only [hw, if_true, BitVec.getLsbD_and, BitVec.getLsbD_not, hk, decide_true,
        Bool.true_and, getLsbD_one_shiftLeft _ _ hk, hsame, hlt]
    · have hne : k ≠ id := fun h => hw (by rw [h])
      simp [hw, hne]

@[simp] theorem test_set (m : BitMask) (id k : Nat) :
    (m.set id).test k = (decide (k < m.len) && (decide (k = id) || m.test k)) := by
  rw [test_eq, test_eq, len_set, bit_set]
  by_cases hk : k < m.len
  · by_cases he : k = id
    · subst he
      simp [hk]
    · simp [hk, he]
  · simp [hk]

@[simp] theorem test_clear (m : BitMask) (id k : Nat) :
    (m.clear id).test k = (decide (k ≠ id) && m.test k) := by
  rw [test_eq, test_eq, len_clear, bit_clear]
  by_cases hk : k < m.len
  · by_cases he : k = id
    · subst he
      simp [hk]
    · simp [he]
  · simp [hk]

/-- Past the end of the source the destination keeps its own word. -/
theorem getElem?_zipInto {α β : Type} (f : α → β → α) :
    ∀ (xs : List α) (ys : List β) (i : Nat),
      (zipInto f xs ys)[i]? = xs[i]?.map fun x => ys[i]?.elim x (f x)
  | [], [], _ => by simp [zipInto]
  | [], _ :: _, _ => by simp [zipInto]
  | _ :: _, [], i => by
      show (_ :: _)[i]? = _
      cases (_ :: _ : List α)[i]? <;> rfl
  | _ :: _, _ :: _, 0 => by simp [zipInto]
  | _ :: xs, _ :: ys, i + 1 => by simpa [zipInto] using getElem?_zipInto f xs ys i

theorem bit_intersect (m n : BitMask) (k : Nat) :
    (m.intersect n).bit k = (m.bit k && (decide (n.words.length ≤ k / 64) || n.bit k)) := by
  simp only [bit, intersect, List.getD_eq_getElem?_getD, getElem?_zipInto]
  by_cases hn : k / 64 < n.words.length
  · rw [List.getElem?_eq_getElem hn]
    cases m.words[k / 64]? <;> simp [Nat.not_le.mpr hn]
  · rw [List.getElem?_eq_none (Nat.le_of_not_lt hn)]
    cases m.words[k / 64]? <;> simp [Nat.le_of_not_lt hn]

theorem bit_copyFrom (m n : BitMask) (k : Nat) :
    (m.copyFrom n).bit k =
      if k / 64 < m.words.length ∧ k / 64 < n.words.length then n.bit k else m.bit k := by
  simp only [bit, copyFrom, List.getD_eq_getElem?_getD, getElem?_zipInto]
  by_cases hm : k / 64 < m.words.length
  · rw [List.getElem?_eq_getElem hm]
    by_cases hn : k / 64 < n.words.length
    · rw [List.getElem?_eq_getElem hn]
      simp [hm, hn]
    · rw [List.getElem?_eq_none (Nat.le_of_not_lt hn)]
      simp [hn]
  · rw [List.getElem?_eq_none (Nat.le_of_not_lt hm)]
    simp [hm]

/-- Masks of one length intersect as sets. -/
@[simp] theorem test_intersect {m n : BitMask} (h : n.len = m.len) (k : Nat) :
    (m.intersect n).test k = (m.test k && n.test k) := by
  by_cases hk : k < m.len
  · have hkn : k < n.len := by omega
    rw [test_eq, len_intersect, test_eq m, test_eq n, bit_intersect]
    simp [hk, hkn, Nat.not_le.mpr (n.word_lt hkn)]
  · have hlen : ¬ (k < (m.intersect n).len) := by simpa using hk
    rw [test_of_len_le (Nat.le_of_not_lt hlen), test_of_len_le (Nat.le_of_not_lt hk)]
    rfl

theorem zipInto_src {α : Type} : ∀ (xs ys : List α), xs.length = ys.length →
    zipInto (fun _ src => src) xs ys = ys
  | [], [], _ => rfl
  | _ :: xs, y :: ys, h => by
      simp only [zipInto, List.cons.injEq, true_and]
      exact zipInto_src xs ys (by simpa using h)

/-- Copying between masks of one length makes them equal. -/
theorem copyFrom_eq {m n : BitMask} (h : n.len = m.len) : m.copyFrom n = n := by
  have hwords : m.words.length = n.words.length := by rw [m.words_len, n.words_len, h]
  cases n with
  | mk words len words_len =>
    simp only at h
    subst h
    simp only [copyFrom, BitMask.mk.injEq, and_true]
    exact zipInto_src _ _ hwords

/-! ## Loops that set bits -/

@[simp] theorem len_foldl_set (p : Nat → Bool) (ids : List Nat) (m : BitMask) :
    (ids.foldl (fun m id => if p id then m.set id else m) m).len = m.len := by
  induction ids generalizing m with
  | nil => rfl
  | cons id ids ih =>
    rw [List.foldl_cons, ih]
    split <;> simp

/-- A loop that sets the bits of the ids it selects. -/
theorem test_foldl_set (p : Nat → Bool) (ids : List Nat) (m : BitMask) (k : Nat) :
    (ids.foldl (fun m id => if p id then m.set id else m) m).test k =
      (m.test k || (decide (k < m.len) && decide (k ∈ ids) && p k)) := by
  induction ids generalizing m with
  | nil => simp
  | cons id ids ih =>
    rw [List.foldl_cons, ih]
    by_cases hp : p id = true
    · simp only [hp, if_true, test_set, len_set]
      by_cases hk : k < m.len
      · by_cases he : k = id
        · subst he
          simp [hk, hp]
        · simp [hk, he]
      · simp [hk, test_of_len_le (Nat.le_of_not_lt hk)]
    · simp only [hp]
      by_cases he : k = id
      · subst he
        simp [hp]
      · simp [he]

end BitMask

end PureCard
