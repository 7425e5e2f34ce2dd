/-
PureCard.Lib.LittleEndian — words written out as bytes, least significant
first.

`bitAt` reads a byte string as bits: bit `k` is bit `k % 8` of byte
`k / 8`. `ofBytes` is the number it spells, with the same bits
(`testBit_ofBytes`). `toBytes` writes a word out, and a list of words
written out one after another has the bits of the words
(`bitAt_flatMap_toBytes`).

`writeAll` copies bytes into a buffer through a bounds check. It changes
no length, and over a buffer that it fills it leaves the bytes, clipped
(`writeAll_zero`). `writeWords` does so word by word, at the place of
each, and that is one copy (`writeWords_eq`).
-/
import Mathlib.Data.Nat.Digits.Defs
import Mathlib.Data.List.GetD

namespace LittleEndian

/-! ## Byte strings as bits -/

def bitAt (bytes : List UInt8) (k : Nat) : Bool :=
  (bytes.getD (k / 8) 0).toBitVec.getLsbD (k % 8)

/-- The number whose base 256 digits are the bytes. -/
def ofBytes (bytes : List UInt8) : Nat := Nat.ofDigits 256 (bytes.map UInt8.toNat)

/-- The low `n` bytes of a word. -/
def toBytes {w : Nat} (n : Nat) (x : BitVec w) : List UInt8 :=
  (List.range n).map fun i => .ofBitVec (x.extractLsb' (8 * i) 8)

@[simp] theorem length_toBytes {w : Nat} (n : Nat) (x : BitVec w) :
    (toBytes n x).length = n := by
  simp [toBytes]

theorem length_flatMap_toBytes {w : Nat} (n : Nat) (words : List (BitVec w)) :
    (words.flatMap (toBytes n)).length = words.length * n := by
  induction words with
  | nil => simp
  | cons x words ih =>
    rw [List.flatMap_cons, List.length_append, ih, length_toBytes, List.length_cons, Nat.succ_mul,
      Nat.add_comm]

@[simp] theorem bitAt_nil (k : Nat) : bitAt [] k = false := by
  simp [bitAt]

theorem bitAt_append (xs ys : List UInt8) (k : Nat) :
    bitAt (xs ++ ys) k =
      if k < 8 * xs.length then bitAt xs k else bitAt ys (k - 8 * xs.length) := by
  by_cases hk : k < 8 * xs.length
  · rw [if_pos hk, bitAt, List.getD_append _ _ _ _ (by omega), bitAt]
  · have hdiv : k / 8 - xs.length = (k - 8 * xs.length) / 8 := by omega
    have hmod : k % 8 = (k - 8 * xs.length) % 8 := by omega
    rw [if_neg hk, bitAt, List.getD_append_right _ _ _ _ (by omega), hdiv, hmod, bitAt]

theorem bitAt_take (bytes : List UInt8) (n k : Nat) :
    bitAt (bytes.take n) k = (decide (k < 8 * n) && bitAt bytes k) := by
  have hword : k / 8 < n ↔ k < 8 * n := by omega
  simp only [bitAt, List.getD_eq_getElem?_getD, List.getElem?_take, hword]
  by_cases hk : k < 8 * n
  · simp [hk]
  · simp [hk]

theorem bitAt_toBytes {w : Nat} (n : Nat) (x : BitVec w) (k : Nat) :
    bitAt (toBytes n x) k = (decide (k < 8 * n) && x.getLsbD k) := by
  have hmod : k % 8 < 8 := Nat.mod_lt k (by decide)
  by_cases hk : k < 8 * n
  · have hdiv : k / 8 < n := by omega
    have hsum : 8 * (k / 8) + k % 8 = k := by omega
    simp [bitAt, toBytes, List.getD_eq_getElem?_getD, hdiv, hk, hmod, hsum]
  · have hdiv : ¬ k / 8 < n := by omega
    simp [bitAt, toBytes, List.getD_eq_getElem?_getD, hdiv, hk]

/-- Words of `8 * n` bits, written out one after another. -/
theorem bitAt_flatMap_toBytes {w n : Nat} (hw : w = 8 * n) (words : List (BitVec w)) (k : Nat) :
    bitAt (words.flatMap (toBytes n)) k = (words.getD (k / w) 0).getLsbD (k % w) := by
  induction words generalizing k with
  | nil => simp
  | cons x words ih =>
    rw [List.flatMap_cons, bitAt_append, length_toBytes, ← hw]
    by_cases hk : k < w
    · rw [if_pos hk, bitAt_toBytes, Nat.div_eq_of_lt hk, Nat.mod_eq_of_lt hk]
      simp [← hw, hk]
    · rw [if_neg hk, ih]
      by_cases hpos : 0 < w
      · rw [Nat.div_eq_sub_div hpos (Nat.le_of_not_lt hk), Nat.mod_eq_sub_mod (Nat.le_of_not_lt hk)]
        simp
      · -- words without bits
        have hzero : w = 0 := by omega
        subst hzero
        simp [BitVec.getLsbD_of_ge]

theorem testBit_ofBytes (bytes : List UInt8) (k : Nat) :
    (ofBytes bytes).testBit k = bitAt bytes k := by
  induction bytes generalizing k with
  | nil => simp [ofBytes]
  | cons b bytes ih =>
    have hcons : ofBytes (b :: bytes) = 2 ^ 8 * ofBytes bytes + b.toNat := by
      simp only [ofBytes, List.map_cons, Nat.ofDigits_cons]
      omega
    have hsplit := bitAt_append [b] bytes k
    rw [List.singleton_append, List.length_singleton] at hsplit
    rw [hcons, Nat.testBit_two_pow_mul_add _ b.toNat_lt, hsplit]
    by_cases hk : k < 8
    · have hdiv : k / 8 = 0 := by omega
      have hmod : k % 8 = k := by omega
      simp [hk, bitAt, hdiv, hmod, BitVec.getLsbD]
    · simp [hk, ih]

/-! ## Copying through a bounds check -/

/-- `if let Some(slot) = buf.get_mut(i) { *slot = byte }`. -/
def writeAt (buf : List UInt8) (i : Nat) (byte : UInt8) : List UInt8 :=
  if i < buf.length then buf.set i byte else buf

/-- Copy `bytes` into `buf`, from `base` on. -/
def writeAll (buf : List UInt8) (base : Nat) (bytes : List UInt8) : List UInt8 :=
  bytes.zipIdx.foldl (fun buf (byte, offset) => writeAt buf (base + offset) byte) buf

/-- Copy `words` into `buf`, `n` bytes each, the first to the place of word
`start`. -/
def writeWords {w : Nat} (n : Nat) (buf : List UInt8) (start : Nat) (words : List (BitVec w)) :
    List UInt8 :=
  (words.zipIdx start).foldl (fun buf (word, i) => writeAll buf (i * n) (toBytes n word)) buf

@[simp] theorem writeAll_nil (buf : List UInt8) (base : Nat) : writeAll buf base [] = buf := rfl

theorem writeAll_cons (buf : List UInt8) (base : Nat) (b : UInt8) (bytes : List UInt8) :
    writeAll buf base (b :: bytes) = writeAll (writeAt buf base b) (base + 1) bytes := by
  simp only [writeAll, List.zipIdx_cons, List.foldl_cons, Nat.zero_add, Nat.add_zero]
  rw [List.zipIdx_succ, List.foldl_map]
  congr 1
  funext buf x
  show writeAt buf (base + (x.2 + 1)) x.1 = writeAt buf (base + 1 + x.2) x.1
  congr 1
  omega

theorem writeAll_append (buf : List UInt8) (base : Nat) (xs ys : List UInt8) :
    writeAll buf base (xs ++ ys) = writeAll (writeAll buf base xs) (base + xs.length) ys := by
  induction xs generalizing buf base with
  | nil => rfl
  | cons x xs ih =>
    rw [List.cons_append, writeAll_cons, ih, writeAll_cons, List.length_cons]
    congr 1
    omega

theorem writeAll_of_length_le {buf : List UInt8} {base : Nat} (h : buf.length ≤ base)
    (bytes : List UInt8) : writeAll buf base bytes = buf := by
  induction bytes generalizing base with
  | nil => rfl
  | cons b bytes ih =>
    rw [writeAll_cons, writeAt, if_neg (Nat.not_lt.mpr h)]
    exact ih (Nat.le_succ_of_le h)

/-- The copy stops at the end of the buffer, and leaves what is past it. -/
theorem writeAll_prefix (front buf bytes : List UInt8) :
    writeAll (front ++ buf) front.length bytes =
      front ++ (bytes.take buf.length ++ buf.drop bytes.length) := by
  induction bytes generalizing front buf with
  | nil => simp
  | cons b bytes ih =>
    cases buf with
    | nil => simp [writeAll_of_length_le]
    | cons x buf =>
      have hset : writeAt (front ++ x :: buf) front.length b = (front ++ [b]) ++ buf := by
        simp [writeAt]
      have hlen : front.length + 1 = (front ++ [b]).length := by simp
      rw [writeAll_cons, hset, hlen, ih]
      simp

theorem writeAll_zero {buf bytes : List UInt8} (h : buf.length ≤ bytes.length) :
    writeAll buf 0 bytes = bytes.take buf.length := by
  have hcopy := writeAll_prefix [] buf bytes
  rwa [List.drop_eq_nil_of_le h, List.append_nil] at hcopy

/-- Word by word is one copy of all the bytes. -/
theorem writeWords_eq {w : Nat} (n : Nat) (buf : List UInt8) (start : Nat)
    (words : List (BitVec w)) :
    writeWords n buf start words = writeAll buf (start * n) (words.flatMap (toBytes n)) := by
  induction words generalizing buf start with
  | nil => rfl
  | cons x words ih =>
    have hstep : writeWords n buf start (x :: words) =
        writeWords n (writeAll buf (start * n) (toBytes n x)) (start + 1) words := rfl
    rw [hstep, ih, List.flatMap_cons, writeAll_append, length_toBytes, Nat.succ_mul]

end LittleEndian
