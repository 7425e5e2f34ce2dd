/-
PureCard.Lib.Registers — a value that closing a scope rolls back.

Items nest by `kind`. A register is set by some items and by some closers;
a closer that does not set it puts it back to what it was at a point of its
scope, the end of `mark body`. A `Setter` says which items and closers set
the register, and `Sets` that a register obeys it.

`InForce` reads off the items alone which setting holds at their end. It is
sound (`Sets.eq_of_inForce`) and complete (`Sets.inForce_or_same`), so a
register is unchanged over some items exactly when every setting in force
after them is the value it had (`Sets.same_iff`).
-/
import PureCard.Lib.Scopes

namespace Scopes

/-- What sets a register: an item, by the items before it, and the closer
of a scope, by the items before the opener. -/
structure Setter (α ν : Type) where
  item : List α → α → Option ν
  scope : List α → Option ν

section

variable {α ν : Type} (kind : α → Nesting) (mark : List α → List α)

/-- After `front`, the register is set to `v` among the items, and that
setting is in force at their end. -/
inductive Setter.InForce (w : Setter α ν) (front : List α) : ν → List α → Prop where
  | item {v : ν} {as : List α} {a : α} (ha : kind a ≠ .closes)
      (hw : w.item (front ++ as) a = some v) : InForce w front v (as ++ [a])
  | scope {v : ν} {as body : List α} {o c : α} (ho : kind o = .opens)
      (hbody : Balanced kind body) (hc : kind c = .closes)
      (hw : w.scope (front ++ as) = some v) : InForce w front v (as ++ o :: body ++ [c])
  | around {v : ν} {as body : List α} {o c : α} (ho : kind o = .opens)
      (hbody : Balanced kind body) (hc : kind c = .closes)
      (hw : w.scope (front ++ as) = none) (h : InForce w front v (as ++ o :: mark body)) :
      InForce w front v (as ++ o :: body ++ [c])
  | keep {v : ν} {as : List α} {a : α} (ha : kind a ≠ .closes)
      (hw : w.item (front ++ as) a = none) (h : InForce w front v as) :
      InForce w front v (as ++ [a])

/-- The register `reg` obeys the setter. -/
structure Setter.Sets (w : Setter α ν) (reg : List α → ν) : Prop where
  item {as : List α} {a : α} (ha : kind a ≠ .closes) :
    reg (as ++ [a]) = (w.item as a).getD (reg as)
  scope {n : Nat} {as body : List α} {o c : α} (has : level kind 0 as = some n)
    (ho : kind o = .opens) (hbody : Balanced kind body) (hc : kind c = .closes) :
    reg (as ++ o :: body ++ [c]) = (w.scope as).getD (reg (as ++ o :: mark body))

variable {kind mark} {w : Setter α ν} {reg : List α → ν} {front : List α}

/-- The front of a scope is shorter than the scope, and nests. -/
theorem level_mark (hmark : ∀ body, ∃ rest, body = mark body ++ rest) {as body : List α} {o c : α}
    {k n m : Nat} (h : level kind k (as ++ o :: body ++ [c]) = some m)
    (hlen : (as ++ o :: body ++ [c]).length = n) :
    (as ++ o :: mark body).length < n ∧ ∃ j, level kind k (as ++ o :: mark body) = some j := by
  obtain ⟨rest, hrest⟩ := hmark body
  have hsplit : as ++ o :: body ++ [c] = as ++ o :: mark body ++ (rest ++ [c]) := by
    conv => lhs; rw [hrest]
    simp
  rw [hsplit] at h hlen
  obtain ⟨j, hj, _⟩ := level_prefix h
  refine ⟨?_, j, hj⟩
  simp only [List.length_append, List.length_cons] at hlen ⊢
  omega

theorem Setter.Sets.eq_of_inForce (h : w.Sets kind mark reg)
    (hmark : ∀ body, ∃ rest, body = mark body ++ rest) {k m : Nat}
    (hfront : level kind 0 front = some k) {v : ν} {as : List α}
    (has : level kind k as = some m) (hv : w.InForce kind mark front v as) :
    reg (front ++ as) = v := by
  have hboth : ∀ {xs ys : List α} {j : Nat}, level kind k (xs ++ ys) = some j →
      ∃ i, level kind 0 (front ++ xs) = some i := by
    intro xs ys j hj
    obtain ⟨i, hi, _⟩ := level_prefix hj
    exact ⟨i, by rw [level_append, hfront]; exact hi⟩
  induction hv generalizing m with
  | item ha hw =>
    rw [← List.append_assoc, h.item ha, hw]
    rfl
  | scope ho hbody hc hw =>
    rename_i xs body o c
    rw [List.append_assoc] at has
    obtain ⟨i, hi⟩ := hboth has
    have hreg := h.scope hi ho hbody hc
    rw [hw] at hreg
    simpa using hreg
  | around ho hbody hc hw _ ih =>
    rename_i xs body o c
    obtain ⟨_, j, hj⟩ := level_mark hmark has rfl
    rw [List.append_assoc] at has
    obtain ⟨i, hi⟩ := hboth has
    have hreg := h.scope hi ho hbody hc
    have hinner := ih hj
    rw [← List.append_assoc] at hinner
    rw [hw, Option.getD_none, hinner] at hreg
    simpa using hreg
  | keep ha hw _ ih =>
    obtain ⟨j, hj, _⟩ := level_prefix has
    rw [← List.append_assoc, h.item ha, hw]
    exact ih hj

/-- Some setting is in force, or the register is what it was. -/
theorem Setter.Sets.inForce_or_same (h : w.Sets kind mark reg)
    (hmark : ∀ body, ∃ rest, body = mark body ++ rest) {k m : Nat}
    (hfront : level kind 0 front = some k) {as : List α} (has : level kind 0 as = some m) :
    (∃ v, w.InForce kind mark front v as) ∨ reg (front ++ as) = reg front := by
  induction hlen : as.length using Nat.strong_induction_on generalizing as m with
  | _ len ih =>
    rcases List.eq_nil_or_concat as with rfl | ⟨as', a, rfl⟩
    · right
      rw [List.append_nil]
    · rw [List.concat_eq_append] at has hlen ⊢
      obtain ⟨n, hn, ha⟩ := level_prefix has
      have hshort : as'.length < len := by
        rw [List.length_append, List.length_singleton] at hlen
        omega
      by_cases hk : kind a = .closes
      · cases n with
        | zero =>
          rw [level_closes_zero hk] at ha
          cases ha
        | succ n =>
          obtain ⟨pre, o, body, rfl, hpre, ho, hbody⟩ := exists_open hn
          have hlevel : level kind 0 (front ++ pre) = some (n + k) := by
            have hadd := level_add hpre k
            rw [Nat.zero_add] at hadd
            rw [level_append, hfront]
            exact hadd
          have hreg := h.scope hlevel ho hbody hk
          cases hw : w.scope (front ++ pre) with
          | some v => exact .inl ⟨v, .scope ho hbody hk hw⟩
          | none =>
            obtain ⟨hless, j, hj⟩ := level_mark hmark has hlen
            rcases ih _ hless hj rfl with ⟨v, hv⟩ | hsame
            · exact .inl ⟨v, .around ho hbody hk hw hv⟩
            · right
              rw [← List.append_assoc] at hsame
              rw [hw, Option.getD_none, hsame] at hreg
              simpa using hreg
      · cases hw : w.item (front ++ as') a with
        | some v => exact .inl ⟨v, .item hk hw⟩
        | none =>
          rcases ih _ hshort hn rfl with ⟨v, hv⟩ | hsame
          · exact .inl ⟨v, .keep hk hw hv⟩
          · right
            rw [← List.append_assoc, h.item hk, hw]
            exact hsame

/-- **When a register keeps its value.** -/
theorem Setter.Sets.same_iff (h : w.Sets kind mark reg)
    (hmark : ∀ body, ∃ rest, body = mark body ++ rest) {k m : Nat}
    (hfront : level kind 0 front = some k) {as : List α} (has : level kind 0 as = some m) :
    reg (front ++ as) = reg front ↔ ∀ v, w.InForce kind mark front v as → v = reg front := by
  have hinner : level kind k as = some (m + k) := by
    have hadd := level_add has k
    rwa [Nat.zero_add] at hadd
  constructor
  · intro hsame v hv
    rw [← h.eq_of_inForce hmark hfront hinner hv]
    exact hsame
  · intro hall
    rcases h.inForce_or_same hmark hfront has with ⟨v, hv⟩ | hsame
    · rw [h.eq_of_inForce hmark hfront hinner hv]
      exact hall v hv
    · exact hsame

end

end Scopes
