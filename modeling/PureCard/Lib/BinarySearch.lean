/-
PureCard.Lib.BinarySearch — the binary search of a sorted list, and
insertion at the place it names.

`search` halves a window until one place is left and compares there: it
answers `ok` with the place of an element under the key, or `error` with
the place where one belongs. Nothing is said of a list that is not sorted.
On a list strictly sorted by its keys an element is found exactly when it
is there (`found_eq_some_iff`), and an element whose key is absent can be
inserted where the failed search points: the list stays sorted
(`SortedBy.insertAt`) and finds one element more (`found_insertAt`).
-/
import Mathlib.Data.List.Basic

namespace BinarySearch

section

variable {α κ : Type} [Ord κ] (key : α → κ)

/-! ## The search -/

/-- How the key at place `i` compares with `k`. -/
def compareAt (k : κ) (xs : List α) (i : Nat) : Option Ordering :=
  xs[i]?.map fun x => compare (key x) k

/-- Halve the window of `size` places from `base` on until one is left:
the upper half is kept unless its first key is past `k`. -/
def narrow (k : κ) (xs : List α) : Nat → Nat → Nat → Nat
  | 0, base, _ => base
  | fuel + 1, base, size =>
    if size ≤ 1 then base
    else
      let half := size / 2
      let mid := base + half
      narrow k xs fuel (if compareAt key k xs mid = some .gt then base else mid) (size - half)

/-- `ok` with the place of `k`, or `error` with the place it belongs at. -/
def search (k : κ) (xs : List α) : Except Nat Nat :=
  let base := narrow key k xs xs.length 0 xs.length
  match compareAt key k xs base with
  | some .eq => .ok base
  | some .lt => .error (base + 1)
  | _ => .error base

/-- The element the search comes to. -/
def found (k : κ) (xs : List α) : Option α :=
  (search key k xs).toOption.bind fun i => xs[i]?

/-- The place the search comes to, whether or not `k` is there. -/
def place (k : κ) (xs : List α) : Nat :=
  match search key k xs with
  | .ok i => i
  | .error i => i

/-- Insert `x` at the place the search for its key comes to. -/
def insertAt (x : α) (xs : List α) : List α :=
  xs.take (place key (key x) xs) ++ x :: xs.drop (place key (key x) xs)

/-- The keys ascend strictly. -/
def SortedBy (xs : List α) : Prop := xs.Pairwise fun a b => compare (key a) (key b) = .lt

@[simp] theorem found_nil (k : κ) : found key k [] = none := rfl

end

/-! ## What it finds -/

section

variable {α κ : Type} [Ord κ] {key : α → κ} {k : κ} {xs : List α}

theorem compareAt_eq_some_iff {i : Nat} {o : Ordering} :
    compareAt key k xs i = some o ↔ ∃ x, xs[i]? = some x ∧ compare (key x) k = o := by
  rw [compareAt, Option.map_eq_some_iff]

theorem compareAt_of_lt {i : Nat} (hi : i < xs.length) :
    compareAt key k xs i = some (compare (key xs[i]) k) := by
  rw [compareAt, List.getElem?_eq_getElem hi]
  rfl

theorem compareAt_of_search_ok {i : Nat} (h : search key k xs = .ok i) :
    compareAt key k xs i = some .eq := by
  rw [search] at h
  split at h <;> cases h
  assumption

theorem mem_insertAt {x y : α} : y ∈ insertAt key x xs ↔ y = x ∨ y ∈ xs := by
  rw [insertAt, List.mem_append, List.mem_cons, or_left_comm, ← List.mem_append,
    List.take_append_drop]

variable [Std.TransOrd κ]

/-- Behind a key past `k` all keys are. -/
theorem SortedBy.compareAt_gt (hs : SortedBy key xs) {i j : Nat} (hij : i ≤ j)
    (hj : j < xs.length) (hi : compareAt key k xs i = some .gt) :
    compareAt key k xs j = some .gt := by
  rcases Nat.eq_or_lt_of_le hij with rfl | hlt
  · exact hi
  · have hasc := List.pairwise_iff_getElem.mp hs i j (by omega) hj hlt
    rw [compareAt_of_lt (by omega), Option.some.injEq] at hi
    rw [compareAt_of_lt hj, Option.some.injEq]
    exact Std.TransCmp.gt_trans (Std.OrientedCmp.gt_of_lt hasc) hi

/-- Before a key not past `k` all keys are smaller. -/
theorem SortedBy.compareAt_lt (hs : SortedBy key xs) {i j : Nat} (hij : i < j)
    (hj : j < xs.length) (hk : compareAt key k xs j ≠ some .gt) :
    compareAt key k xs i = some .lt := by
  have hasc := List.pairwise_iff_getElem.mp hs i j (by omega) hj hij
  rw [compareAt_of_lt hj, ne_eq, Option.some.injEq] at hk
  rw [compareAt_of_lt (by omega), Option.some.injEq]
  exact Std.TransCmp.lt_of_lt_of_isLE hasc (Ordering.isLE_iff_ne_gt.mpr hk)

/-- **The halving** ends at a place whose key is not past `k`, unless it is
the first place, and behind which all keys are past `k`. -/
theorem SortedBy.narrow_spec (hs : SortedBy key xs) (fuel : Nat) {base size : Nat}
    (hfuel : size ≤ fuel + 1) (hpos : 0 < size) (hle : base + size ≤ xs.length)
    (hlow : base = 0 ∨ compareAt key k xs base ≠ some .gt)
    (hhigh : ∀ j, base + size ≤ j → j < xs.length → compareAt key k xs j = some .gt) :
    narrow key k xs fuel base size < xs.length ∧
      (narrow key k xs fuel base size = 0 ∨
        compareAt key k xs (narrow key k xs fuel base size) ≠ some .gt) ∧
      ∀ j, narrow key k xs fuel base size < j → j < xs.length →
        compareAt key k xs j = some .gt := by
  induction fuel generalizing base size with
  | zero =>
    rw [narrow]
    exact ⟨by omega, hlow, fun j hj => hhigh j (by omega)⟩
  | succ fuel ih =>
    rw [narrow]
    split
    · exact ⟨by omega, hlow, fun j hj => hhigh j (by omega)⟩
    · rename_i hsize
      dsimp only
      by_cases hmid : compareAt key k xs (base + size / 2) = some .gt
      · -- the lower half
        rw [if_pos hmid]
        refine ih (by omega) (by omega) (by omega) hlow fun j hj hlt => ?_
        exact hs.compareAt_gt (by omega) hlt hmid
      · -- the upper half
        rw [if_neg hmid]
        exact ih (by omega) (by omega) (by omega) (.inr hmid)
          fun j hj => hhigh j (by omega)

/-- A search that fails splits the keys at the place it names. -/
theorem SortedBy.search_error (hs : SortedBy key xs) {i : Nat}
    (h : search key k xs = .error i) :
    i ≤ xs.length ∧ (∀ j, j < i → compareAt key k xs j = some .lt) ∧
      ∀ j, i ≤ j → j < xs.length → compareAt key k xs j = some .gt := by
  rcases Nat.eq_zero_or_pos xs.length with hnil | hpos
  · obtain rfl := List.eq_nil_of_length_eq_zero hnil
    cases h
    exact ⟨Nat.le_refl _, fun j hj => absurd hj (Nat.not_lt_zero j), fun j _ hj => by simp at hj⟩
  · obtain ⟨hlt, hlow, hhigh⟩ := hs.narrow_spec (k := k) xs.length (Nat.le_succ _) hpos
      (Nat.le_of_eq (Nat.zero_add _)) (.inl rfl) fun j hj hlt => by omega
    rw [search] at h
    generalize narrow key k xs xs.length 0 xs.length = base at h hlt hlow hhigh
    split at h
    · cases h
    · rename_i hcmp
      cases h
      refine ⟨hlt, fun j hj => ?_, fun j hj => hhigh j hj⟩
      rcases Nat.eq_or_lt_of_le (Nat.le_of_lt_succ hj) with rfl | hj
      · exact hcmp
      · exact hs.compareAt_lt hj hlt (by rw [hcmp]; simp)
    · rename_i hne hnlt
      cases h
      have hgt : compareAt key k xs i = some .gt := by
        rw [compareAt_of_lt hlt] at hne hnlt ⊢
        cases hc : compare (key xs[i]) k with
        | eq => exact absurd (congrArg some hc) hne
        | lt => exact absurd (congrArg some hc) hnlt
        | gt => rfl
      obtain rfl := hlow.resolve_right (fun h => h hgt)
      exact ⟨Nat.zero_le _, fun j hj => absurd hj (Nat.not_lt_zero j),
        fun j hj hlt => hs.compareAt_gt hj hlt hgt⟩

variable [Std.LawfulEqOrd κ]

/-- **What the search finds** in a sorted list is what is there. -/
theorem SortedBy.found_eq_some_iff (hs : SortedBy key xs) {x : α} :
    found key k xs = some x ↔ x ∈ xs ∧ key x = k := by
  constructor
  · intro h
    obtain ⟨i, hi, hx⟩ := Option.bind_eq_some_iff.mp h
    cases hsearch : search key k xs with
    | error i => rw [hsearch] at hi; cases hi
    | ok j =>
      rw [hsearch] at hi
      cases hi
      obtain ⟨y, hy, hkey⟩ := compareAt_eq_some_iff.mp (compareAt_of_search_ok hsearch)
      rw [hx, Option.some.injEq] at hy
      subst hy
      exact ⟨List.mem_of_getElem? hx, Std.LawfulEqOrd.eq_of_compare hkey⟩
  · rintro ⟨hx, rfl⟩
    obtain ⟨j, hj, rfl⟩ := List.getElem_of_mem hx
    have hself : compareAt key (key xs[j]) xs j = some .eq := by
      rw [compareAt_of_lt hj]
      exact congrArg some Std.ReflCmp.compare_self
    rw [found]
    cases hsearch : search key (key xs[j]) xs with
    | error i =>
      obtain ⟨-, hlow, hhigh⟩ := hs.search_error hsearch
      rcases Nat.lt_or_ge j i with hji | hij
      · rw [hlow j hji] at hself; cases hself
      · rw [hhigh j hij hj] at hself; cases hself
    | ok i =>
      have heq := compareAt_of_search_ok hsearch
      obtain ⟨y, hy, -⟩ := compareAt_eq_some_iff.mp heq
      have hi : i < xs.length := (List.getElem?_eq_some_iff.mp hy).1
      -- two places with one key are the same place
      have hij : i = j := by
        rcases Nat.lt_trichotomy i j with hlt | rfl | hlt
        · rw [hs.compareAt_lt hlt hj (by rw [hself]; simp)] at heq; cases heq
        · rfl
        · rw [hs.compareAt_lt hlt hi (by rw [heq]; simp)] at hself; cases hself
      subst hij
      exact List.getElem?_eq_getElem hj

/-! ## Insertion -/

theorem SortedBy.place_error (hs : SortedBy key xs) (habsent : found key k xs = none) :
    search key k xs = .error (place key k xs) := by
  rw [place]
  cases hsearch : search key k xs with
  | error i => rfl
  | ok i =>
    obtain ⟨x, hx, hkey⟩ := compareAt_eq_some_iff.mp (compareAt_of_search_ok hsearch)
    have hthere : found key k xs = some x :=
      hs.found_eq_some_iff.mpr ⟨List.mem_of_getElem? hx, Std.LawfulEqOrd.eq_of_compare hkey⟩
    rw [habsent] at hthere
    cases hthere

variable {x : α}

/-- **Insertion keeps the list sorted.** -/
theorem SortedBy.insertAt (hs : SortedBy key xs) (habsent : found key (key x) xs = none) :
    SortedBy key (insertAt key x xs) := by
  obtain ⟨-, hlow, hhigh⟩ := hs.search_error (hs.place_error habsent)
  have hbefore : ∀ a ∈ xs.take (place key (key x) xs), compare (key a) (key x) = .lt := by
    intro a ha
    obtain ⟨j, hj, rfl⟩ := List.mem_take_iff_getElem.mp ha
    have hlt := hlow j (by omega)
    rwa [compareAt_of_lt (by omega), Option.some.injEq] at hlt
  have hbehind : ∀ b ∈ xs.drop (place key (key x) xs), compare (key x) (key b) = .lt := by
    intro b hb
    obtain ⟨j, hj, rfl⟩ := List.mem_drop_iff_getElem.mp hb
    have hgt := hhigh (place key (key x) xs + j) (Nat.le_add_right _ _) (by omega)
    rw [compareAt_of_lt (by omega), Option.some.injEq] at hgt
    exact Std.OrientedCmp.lt_of_gt hgt
  refine List.pairwise_append.mpr ⟨hs.sublist (List.take_sublist _ _),
    List.pairwise_cons.mpr ⟨hbehind, hs.sublist (List.drop_sublist _ _)⟩, ?_⟩
  intro a ha b hb
  rcases List.mem_cons.mp hb with rfl | hb
  · exact hbefore a ha
  · exact Std.TransCmp.lt_trans (hbefore a ha) (hbehind b hb)

/-- One element more is found. -/
theorem SortedBy.found_insertAt [DecidableEq κ] (hs : SortedBy key xs)
    (habsent : found key (key x) xs = none) (k : κ) :
    found key k (BinarySearch.insertAt key x xs) =
      if k = key x then some x else found key k xs := by
  apply Option.ext
  intro y
  rw [(hs.insertAt habsent).found_eq_some_iff, mem_insertAt]
  split
  · rename_i hk
    subst hk
    rw [Option.some.injEq]
    constructor
    · rintro ⟨rfl | hy, hkey⟩
      · rfl
      · have hthere := hs.found_eq_some_iff.mpr ⟨hy, hkey⟩
        rw [habsent] at hthere
        cases hthere
    · rintro rfl
      exact ⟨.inl rfl, rfl⟩
  · rename_i hk
    rw [hs.found_eq_some_iff]
    constructor
    · rintro ⟨rfl | hy, hkey⟩
      · exact absurd hkey.symm hk
      · exact ⟨hy, hkey⟩
    · rintro ⟨hy, hkey⟩
      exact ⟨.inr hy, hkey⟩

end

end BinarySearch
