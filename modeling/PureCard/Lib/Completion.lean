/-
PureCard.Lib.Completion — completing a word towards a set of names.

Fix a set `names` of words and a predicate `ends` on letters: the letters
that may stand right after a finished name. A word is `Live` while it is a
prefix of some name. Reading on from a live word, one letter at a time,
has three outcomes: the word is still live, it has run past a finished
name through an ending letter, or it has left every name (`Verdict`).

The longer name wins: as long as some name goes on with the next letter
the word is live, whatever finished before. `verdict_ne_off_iff` says in
one line which continuations are not off.
-/
import Mathlib.Data.Set.Basic
import Mathlib.Data.List.Infix
import Mathlib.Tactic.Common

namespace PureCard.Completion

variable {β : Type}

/-- A prefix of some name. -/
def Live (names : Set (List β)) (w : List β) : Prop := ∃ n ∈ names, w <+: n

theorem Live.of_append {names : Set (List β)} {u v : List β} (h : Live names (u ++ v)) :
    Live names u := by
  obtain ⟨n, hn, hp⟩ := h
  exact ⟨n, hn, (List.prefix_append u v).trans hp⟩

theorem Live.of_mem {names : Set (List β)} {n : List β} (h : n ∈ names) : Live names n :=
  ⟨n, h, List.prefix_rfl⟩

theorem Live.of_prefix {names : Set (List β)} {u v : List β} (huv : u <+: v)
    (h : Live names v) : Live names u := by
  obtain ⟨w, rfl⟩ := huv
  exact h.of_append

/-- What reading on from a live word can come to. -/
inductive Verdict where
  | live
  | done
  | off
  deriving DecidableEq

open Classical in
/-- Read the word `t` on from the live word `p`. -/
noncomputable def verdict (names : Set (List β)) (ends : β → Prop) (p : List β) :
    List β → Verdict
  | [] => .live
  | b :: t =>
    if Live names (p ++ [b]) then verdict names ends (p ++ [b]) t
    else if p ∈ names ∧ ends b then .done
    else .off

variable {names : Set (List β)} {ends : β → Prop}

/-- **What is not off**: the whole word is live, or it splits right after
a finished name that no name continues with the next letter. -/
theorem verdict_ne_off_iff {p t : List β} (hp : Live names p) :
    verdict names ends p t ≠ .off ↔
      Live names (p ++ t) ∨
        ∃ a b r, t = a ++ b :: r ∧ p ++ a ∈ names ∧ ¬ Live names (p ++ a ++ [b]) ∧ ends b := by
  induction t generalizing p with
  | nil =>
    simp only [verdict, ne_eq, reduceCtorEq, not_false_eq_true, List.append_nil, true_iff]
    exact .inl hp
  | cons b t ih =>
    rw [verdict]
    by_cases hlive : Live names (p ++ [b])
    · rw [if_pos hlive, ih hlive]
      constructor
      · rintro (h | ⟨a, c, r, rfl, hn, hoff, he⟩)
        · exact .inl (by simpa using h)
        · refine .inr ⟨b :: a, c, r, rfl, by simpa using hn, ?_, he⟩
          simpa using hoff
      · rintro (h | ⟨a, c, r, hsplit, hn, hoff, he⟩)
        · exact .inl (by simpa using h)
        · cases a with
          | nil =>
            -- the split would stop where a name goes on
            simp only [List.nil_append, List.cons.injEq] at hsplit
            rw [List.append_nil, ← hsplit.1] at hoff
            exact absurd hlive hoff
          | cons x a =>
            simp only [List.cons_append, List.cons.injEq] at hsplit
            obtain ⟨rfl, rfl⟩ := hsplit
            exact .inr ⟨a, c, r, rfl, by simpa using hn, by simpa using hoff, he⟩
    · rw [if_neg hlive]
      have hwhole : ¬ Live names (p ++ b :: t) := fun h =>
        hlive (Live.of_append (v := t) (by simpa using h))
      by_cases hdone : p ∈ names ∧ ends b
      · rw [if_pos hdone]
        simp only [ne_eq, reduceCtorEq, not_false_eq_true, true_iff]
        exact .inr ⟨[], b, t, rfl, by simpa using hdone.1, by simpa using hlive, hdone.2⟩
      · rw [if_neg hdone]
        simp only [ne_eq, not_true_eq_false, false_iff, not_or]
        refine ⟨hwhole, ?_⟩
        rintro ⟨a, c, r, hsplit, hn, hoff, he⟩
        cases a with
        | nil =>
          simp only [List.nil_append, List.cons.injEq] at hsplit
          rw [List.append_nil] at hn
          exact hdone ⟨hn, hsplit.1 ▸ he⟩
        | cons x a =>
          simp only [List.cons_append, List.cons.injEq] at hsplit
          obtain ⟨rfl, rfl⟩ := hsplit
          have : Live names (p ++ b :: a) := .of_mem hn
          exact hlive (Live.of_append (v := a) (by simpa using this))

/-- A live part of the way can be read off first. -/
theorem verdict_append {p u : List β} (h : Live names (p ++ u)) (v : List β) :
    verdict names ends p (u ++ v) = verdict names ends (p ++ u) v := by
  induction u generalizing p with
  | nil => rw [List.nil_append, List.append_nil]
  | cons b u ih =>
    rw [List.append_cons] at h ⊢
    rw [List.cons_append, verdict, if_pos h.of_append, ih h]

/-- Every prefix of a live word is reached live. -/
theorem verdict_eq_live_iff {p t : List β} (hp : Live names p) :
    verdict names ends p t = .live ↔ Live names (p ++ t) := by
  induction t generalizing p with
  | nil => simpa [verdict] using hp
  | cons b t ih =>
    rw [verdict]
    by_cases hlive : Live names (p ++ [b])
    · rw [if_pos hlive, ih hlive]
      simp
    · rw [if_neg hlive]
      have hwhole : ¬ Live names (p ++ b :: t) := fun h =>
        hlive (Live.of_append (v := t) (by simpa using h))
      split <;> simp [hwhole]

end PureCard.Completion
