/-
PureCard.Schema.Gaps — the pieces of a structural gap.

`gapTokens` munches a gap from the left. The lexer appends to a gap on the
right, one byte at a time, so what is needed here is the view from the
right: `gapTokens_concat` says that a further byte is dropped, is a piece
of its own, or makes the last piece longer. `spells_gapTokens` says that
the pieces are the gap, whitespace aside.
-/
import PureCard.Schema.Scope
import Mathlib.Data.List.TakeWhile

namespace PureCard

namespace ScopeTracker

/-- The two-byte operators. -/
def twoByteOps : List (UInt8 × UInt8) :=
  [(Byte.dash, Byte.gt), (Byte.eq, Byte.eq), (Byte.bang, Byte.eq), (Byte.lt, Byte.eq),
   (Byte.gt, Byte.eq), (Byte.amp, Byte.amp), (Byte.pipe, Byte.pipe)]

theorem isTwoByteOp_iff {a b : UInt8} : isTwoByteOp a b = true ↔ (a, b) ∈ twoByteOps := by
  simp [isTwoByteOp, twoByteOps, or_assoc]

theorem isAsciiWhitespace_of_op {a b : UInt8} (h : isTwoByteOp a b = true) :
    isAsciiWhitespace a = false ∧ isIdentTail a = false ∧ isIdentTail b = false := by
  have hall : twoByteOps.all (fun op => !isAsciiWhitespace op.1 && !isIdentTail op.1 &&
      !isIdentTail op.2) = true := by decide
  simpa [and_assoc] using List.all_eq_true.mp hall (a, b) (isTwoByteOp_iff.mp h)

theorem isIdentTail_of_start {b : UInt8} (h : isIdentStart b = true) : isIdentTail b = true := by
  grind [isIdentStart, isIdentTail, isAsciiAlphanumeric]

theorem isAsciiWhitespace_of_tail {b : UInt8} (h : isIdentTail b = true) :
    isAsciiWhitespace b = false := by
  grind [isIdentTail, isAsciiAlphanumeric, isAsciiAlphabetic, isAsciiLowercase, isAsciiDigit,
    isAsciiWhitespace]

theorem startsTwoByteOp_of_tail {b : UInt8} (h : isIdentTail b = true) (tail : Bytes) :
    startsTwoByteOp (b :: tail) = false := by
  cases tail with
  | nil => rfl
  | cons c tail =>
    rw [startsTwoByteOp, Bool.eq_false_iff]
    intro hop
    rw [(isAsciiWhitespace_of_op hop).2.1] at h
    cases h

/-! ## The equations of the munch -/

theorem length_dropWhile_le (p : UInt8 → Bool) (l : Bytes) : (l.dropWhile p).length ≤ l.length :=
  (List.dropWhile_sublist p).length_le

/-- More rounds than bytes change nothing. -/
theorem munchGap_of_le {n : Nat} {gap : Bytes} (h : gap.length ≤ n) :
    munchGap n gap = gapTokens gap := by
  induction n using Nat.strong_induction_on generalizing gap with
  | _ n ih =>
    cases gap with
    | nil => cases n <;> rfl
    | cons b tail =>
      obtain ⟨n, rfl⟩ : ∃ m, n = m + 1 := ⟨n - 1, by simp only [List.length_cons] at h; omega⟩
      have htail : tail.length ≤ n := by simpa using h
      unfold gapTokens
      rw [List.length_cons, munchGap, munchGap]
      have hshort : ∀ g : Bytes, g.length ≤ tail.length → munchGap n g = munchGap tail.length g := by
        intro g hg
        rw [ih n (by omega) (by omega)]
        rcases Nat.lt_or_ge tail.length (n + 1) with hlt | hge
        · rw [ih tail.length hlt hg]
        · omega
      by_cases hws : isAsciiWhitespace b = true
      · rw [if_pos hws, if_pos hws, hshort tail (le_refl _)]
      · rw [if_neg hws, if_neg hws]
        by_cases hop : startsTwoByteOp (b :: tail) = true
        · rw [if_pos hop, if_pos hop, hshort _ (by simp)]
        · rw [if_neg hop, if_neg hop]
          by_cases hid : isIdentStart b = true
          · have hlen : ((b :: tail).dropWhile isIdentTail).length ≤ tail.length := by
              rw [List.dropWhile_cons_of_pos (isIdentTail_of_start hid)]
              exact length_dropWhile_le ..
            rw [if_pos hid, if_pos hid, hshort _ hlen]
          · rw [if_neg hid, if_neg hid, hshort tail (le_refl _)]

@[simp] theorem gapTokens_nil : gapTokens [] = [] := rfl

theorem gapTokens_ws {b : UInt8} (h : isAsciiWhitespace b = true) (tail : Bytes) :
    gapTokens (b :: tail) = gapTokens tail := by
  rw [gapTokens, List.length_cons, munchGap, if_pos h, munchGap_of_le (le_refl _)]

theorem mem_of_blank {b : UInt8} (h : isAsciiWhitespace b = true) :
    b ∈ [(9 : UInt8), 10, 12, 13, 32] := by
  simpa [isAsciiWhitespace, or_assoc] using h

theorem gapTokens_blank {ws : Bytes} (hws : ∀ b ∈ ws, isAsciiWhitespace b = true) :
    gapTokens ws = [] := by
  induction ws with
  | nil => rfl
  | cons b ws ih =>
    rw [gapTokens_ws (hws b List.mem_cons_self)]
    exact ih fun c hc => hws c (List.mem_cons_of_mem b hc)

theorem gapTokens_op {a b : UInt8} (h : isTwoByteOp a b = true) (tail : Bytes) :
    gapTokens (a :: b :: tail) = [a, b] :: gapTokens tail := by
  have hws := (isAsciiWhitespace_of_op h).1
  rw [gapTokens, List.length_cons, munchGap, if_neg (by simp [hws]), if_pos (by exact h),
    munchGap_of_le (by simp)]
  rfl

theorem gapTokens_ident {b : UInt8} {tail : Bytes} (h : isIdentStart b = true) :
    gapTokens (b :: tail) =
      (b :: tail.takeWhile isIdentTail) :: gapTokens (tail.dropWhile isIdentTail) := by
  have htl := isIdentTail_of_start h
  rw [gapTokens, List.length_cons, munchGap, if_neg (by simp [isAsciiWhitespace_of_tail htl]),
    if_neg (by simp [startsTwoByteOp_of_tail htl]), if_pos h, List.takeWhile_cons_of_pos htl,
    List.dropWhile_cons_of_pos htl, munchGap_of_le (length_dropWhile_le ..)]

theorem gapTokens_single {b : UInt8} {tail : Bytes} (hws : isAsciiWhitespace b = false)
    (hop : startsTwoByteOp (b :: tail) = false) (hid : isIdentStart b = false) :
    gapTokens (b :: tail) = [b] :: gapTokens tail := by
  rw [gapTokens, List.length_cons, munchGap, if_neg (by simp [hws]), if_neg (by simp [hop]),
    if_neg (by simp [hid]), munchGap_of_le (le_refl _)]

/-- The four shapes of a gap that is not empty. -/
theorem gap_cases (b : UInt8) (tail : Bytes) :
    isAsciiWhitespace b = true ∨
    (∃ c rest, tail = c :: rest ∧ isTwoByteOp b c = true) ∨
    (isIdentStart b = true) ∨
    (isAsciiWhitespace b = false ∧ startsTwoByteOp (b :: tail) = false ∧ isIdentStart b = false) := by
  by_cases hws : isAsciiWhitespace b = true
  · exact .inl hws
  · by_cases hop : startsTwoByteOp (b :: tail) = true
    · cases tail with
      | nil => cases hop
      | cons c rest => exact .inr (.inl ⟨c, rest, rfl, hop⟩)
    · by_cases hid : isIdentStart b = true
      · exact .inr (.inr (.inl hid))
      · exact .inr (.inr (.inr ⟨by simpa using hws, by simpa using hop, by simpa using hid⟩))

/-! ## A gap from the right -/

/-- How one more byte changes the pieces of a gap. -/
inductive Grown (ps : List Bytes) (b : UInt8) : List Bytes → Prop where
  | ws (h : isAsciiWhitespace b = true) : Grown ps b ps
  | single (h : isAsciiWhitespace b = false) : Grown ps b (ps ++ [[b]])
  | op (front : List Bytes) {a : UInt8} (hps : ps = front ++ [[a]])
      (h : isTwoByteOp a b = true) : Grown ps b (front ++ [[a, b]])
  | ident (front : List Bytes) {c : UInt8} {w : Bytes} (hps : ps = front ++ [c :: w])
      (hc : isIdentStart c = true) (h : isIdentTail b = true) :
      Grown ps b (front ++ [c :: w ++ [b]])

theorem Grown.cons {ps qs : List Bytes} {b : UInt8} (p : Bytes) (h : Grown ps b qs) :
    Grown (p :: ps) b (p :: qs) := by
  cases h with
  | ws h => exact .ws h
  | single h => exact .single h
  | op front hps h => exact .op (p :: front) (by rw [hps]; rfl) h
  | ident front hps hc h => exact .ident (p :: front) (by rw [hps]; rfl) hc h

/-- A further byte is dropped, is a piece of its own, or makes the last
piece longer. -/
theorem gapTokens_concat (gap : Bytes) (b : UInt8) :
    Grown (gapTokens gap) b (gapTokens (gap ++ [b])) := by
  induction h : gap.length using Nat.strong_induction_on generalizing gap with
  | _ n ih =>
    subst h
    cases gap with
    | nil =>
      rcases gap_cases b [] with hws | ⟨c, rest, h, _⟩ | hid | ⟨hws, hop, hid⟩
      · rw [List.nil_append, gapTokens_ws hws]
        exact .ws hws
      · cases h
      · have hws := isAsciiWhitespace_of_tail (isIdentTail_of_start hid)
        rw [List.nil_append, gapTokens_ident hid]
        exact .single hws
      · rw [List.nil_append, gapTokens_single hws hop hid]
        exact .single hws
    | cons a tail =>
      have hih : ∀ g : Bytes, g.length ≤ tail.length → Grown (gapTokens g) b (gapTokens (g ++ [b])) :=
        fun g hg => ih g.length (by simp only [List.length_cons]; omega) g rfl
      rcases gap_cases a tail with hws | ⟨c, rest, rfl, hop⟩ | hid | ⟨hws, hop, hid⟩
      · rw [List.cons_append, gapTokens_ws hws, gapTokens_ws hws]
        exact hih tail (le_refl _)
      · rw [List.cons_append, List.cons_append, gapTokens_op hop, gapTokens_op hop]
        exact (hih rest (by simp)).cons _
      · rw [List.cons_append, gapTokens_ident hid, gapTokens_ident hid]
        cases hdrop : tail.dropWhile isIdentTail with
        | nil =>
          -- the run reaches the end of the gap
          have hall : ∀ c ∈ tail, isIdentTail c = true := List.dropWhile_eq_nil_iff.mp hdrop
          have htake : tail.takeWhile isIdentTail = tail := List.takeWhile_eq_self_iff.mpr hall
          rw [htake, gapTokens_nil]
          by_cases hb : isIdentTail b = true
          · have hall' : ∀ c ∈ tail ++ [b], isIdentTail c = true := by
              intro c hc
              rcases List.mem_append.mp hc with hc | hc
              · exact hall c hc
              · rw [List.mem_singleton.mp hc]
                exact hb
            rw [List.takeWhile_eq_self_iff.mpr hall', List.dropWhile_eq_nil_iff.mpr hall',
              gapTokens_nil]
            exact .ident [] rfl hid hb
          · have htake' : (tail ++ [b]).takeWhile isIdentTail = tail := by
              rw [List.takeWhile_append_of_pos hall, List.takeWhile_cons_of_neg hb, List.append_nil]
            have hdrop' : (tail ++ [b]).dropWhile isIdentTail = [b] := by
              rw [List.dropWhile_append_of_pos hall, List.dropWhile_cons_of_neg hb]
            rw [htake', hdrop']
            have := (hih [] (by simp)).cons (a :: tail)
            simpa using this
        | cons d rest =>
          have htake' : (tail ++ [b]).takeWhile isIdentTail = tail.takeWhile isIdentTail := by
            have hne : (tail.takeWhile isIdentTail).length ≠ tail.length := by
              intro heq
              have hsum := congrArg List.length (@List.takeWhile_append_dropWhile _ isIdentTail tail)
              rw [List.length_append, heq, hdrop] at hsum
              simp at hsum
            rw [List.takeWhile_append, if_neg hne]
          have hdrop' : (tail ++ [b]).dropWhile isIdentTail = tail.dropWhile isIdentTail ++ [b] := by
            rw [List.dropWhile_append, hdrop]
            rfl
          rw [htake', hdrop', ← hdrop]
          exact (hih _ (length_dropWhile_le ..)).cons _
      · rw [gapTokens_single hws hop hid]
        cases tail with
        | nil =>
          rw [List.cons_append, List.nil_append, gapTokens_nil]
          by_cases hop' : isTwoByteOp a b = true
          · rw [gapTokens_op hop', gapTokens_nil]
            exact .op [] rfl hop'
          · rw [gapTokens_single hws (by simpa [startsTwoByteOp] using hop') hid]
            exact (hih [] (le_refl _)).cons [a]
        | cons c rest =>
          rw [List.cons_append, gapTokens_single hws (by exact hop) hid]
          exact (hih (c :: rest) (le_refl _)).cons [a]

/-! ## The pieces are the gap -/

/-- The pieces `ps`, with whitespace before, between and after them, are
the text `t`. -/
inductive Spells : List Bytes → Bytes → Prop where
  | nil : Spells [] []
  | ws {b : UInt8} {ps : List Bytes} {t : Bytes} (h : isAsciiWhitespace b = true)
      (ht : Spells ps t) : Spells ps (b :: t)
  | piece {ps : List Bytes} {t : Bytes} (p : Bytes) (ht : Spells ps t) : Spells (p :: ps) (p ++ t)

theorem Spells.append {ps qs : List Bytes} {t u : Bytes} (hp : Spells ps t) (hq : Spells qs u) :
    Spells (ps ++ qs) (t ++ u) := by
  induction hp with
  | nil => exact hq
  | ws h _ ih => exact .ws h ih
  | piece p _ ih =>
    rw [List.cons_append, List.append_assoc]
    exact .piece p ih

theorem Spells.single (p : Bytes) : Spells [p] p := by
  have := Spells.piece p .nil
  rwa [List.append_nil] at this

/-- A split of the pieces is a split of the text. -/
theorem Spells.split {ps qs : List Bytes} {t : Bytes} (h : Spells (ps ++ qs) t) :
    ∃ u v, t = u ++ v ∧ Spells ps u ∧ Spells qs v := by
  induction ps generalizing t with
  | nil => exact ⟨[], t, rfl, .nil, h⟩
  | cons p ps ih =>
    rw [List.cons_append] at h
    generalize hall : p :: (ps ++ qs) = all at h
    induction h with
    | nil => cases hall
    | ws hb _ ihws =>
      obtain ⟨u, v, rfl, hu, hv⟩ := ihws hall
      exact ⟨_ :: u, v, rfl, .ws hb hu, hv⟩
    | piece q ht _ =>
      simp only [List.cons.injEq] at hall
      obtain ⟨rfl, rfl⟩ := hall
      obtain ⟨u, v, rfl, hu, hv⟩ := ih ht
      exact ⟨p ++ u, v, by rw [List.append_assoc], .piece p hu, hv⟩

theorem spells_gapTokens (gap : Bytes) : Spells (gapTokens gap) gap := by
  induction h : gap.length using Nat.strong_induction_on generalizing gap with
  | _ n ih =>
    subst h
    cases gap with
    | nil => exact .nil
    | cons a tail =>
      have hih : ∀ g : Bytes, g.length ≤ tail.length → Spells (gapTokens g) g :=
        fun g hg => ih g.length (by simp only [List.length_cons]; omega) g rfl
      rcases gap_cases a tail with hws | ⟨c, rest, rfl, hop⟩ | hid | ⟨hws, hop, hid⟩
      · rw [gapTokens_ws hws]
        exact .ws hws (hih tail (le_refl _))
      · rw [gapTokens_op hop]
        exact .piece [a, c] (hih rest (by simp))
      · rw [gapTokens_ident hid]
        have := Spells.piece (a :: tail.takeWhile isIdentTail)
          (hih (tail.dropWhile isIdentTail) (length_dropWhile_le ..))
        rwa [List.cons_append, List.takeWhile_append_dropWhile] at this
      · rw [gapTokens_single hws hop hid]
        exact .piece [a] (hih tail (le_refl _))

end ScopeTracker

end PureCard
