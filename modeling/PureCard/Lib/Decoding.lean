/-
PureCard.Lib.Decoding — masked generation over any language.

`L` is a set of words. A token has a sign: it spells some text, it ends the
stream, or it is no token at all. A decoder offers some tokens after those
it has emitted; `Emits` is a run of it, each token taken from the offer, up
to a word of `L`.

`ideal` is the offer to compare a decoder with: a text token when some word
of `L` still goes on behind it, the end token when the text is a word. Its
runs are exactly the words of `L` that the tokens spell (`emits_ideal`), and
a decoder that offers less emits less (`Emits.mono`).
-/
import Mathlib.Data.Set.Basic
import Mathlib.Tactic.Common

namespace PureCard.Decoding

/-- What a token adds to a stream. -/
inductive Sign (β : Type) where
  | text (w : List β)
  | stop
  | unknown

/-- The text of a token; only text tokens have any. -/
def Sign.spelled {β : Type} : Sign β → List β
  | .text w => w
  | .stop | .unknown => []

variable {β ι : Type}

/-- Some word of the language goes on from `u`. -/
def Viable (L : Set (List β)) (u : List β) : Prop := ∃ w, u ++ w ∈ L

/-- The tokens that keep the text `u` on the way to a word. -/
def ideal (L : Set (List β)) (sign : ι → Sign β) (u : List β) : Set ι :=
  {i | (∃ w, sign i = .text w ∧ Viable L (u ++ w)) ∨ (sign i = .stop ∧ u ∈ L)}

/-- The text of a stream of tokens. -/
def textOf (sign : ι → Sign β) (is : List ι) : List β := is.flatMap fun i => (sign i).spelled

variable {L : Set (List β)} {sign : ι → Sign β} {offer offer' : List ι → Set ι} {u v : List β}
  {past next : List ι} {i : ι}

theorem Viable.of_append (h : Viable L (u ++ v)) : Viable L u := by
  obtain ⟨w, hw⟩ := h
  exact ⟨v ++ w, by rwa [← List.append_assoc]⟩

@[simp] theorem textOf_nil : textOf sign [] = [] := rfl

theorem textOf_append : textOf sign (past ++ next) = textOf sign past ++ textOf sign next :=
  List.flatMap_append

theorem textOf_cons : textOf sign (i :: next) = (sign i).spelled ++ textOf sign next := rfl

/-- `next` is emitted behind `past`: token by token from what is offered, up
to a word of the language. -/
inductive Emits (L : Set (List β)) (sign : ι → Sign β) (offer : List ι → Set ι) :
    List ι → List ι → Prop where
  | done {past : List ι} (h : textOf sign past ∈ L) : Emits L sign offer past []
  | token {past next : List ι} {i : ι} (hi : i ∈ offer past)
      (hrest : Emits L sign offer (past ++ [i]) next) : Emits L sign offer past (i :: next)

/-- A run, from its tokens and its end. -/
theorem emits_iff : Emits L sign offer past next ↔
    (∀ front i rest, next = front ++ i :: rest → i ∈ offer (past ++ front)) ∧
      textOf sign (past ++ next) ∈ L := by
  constructor
  · intro h
    induction h with
    | done h => exact ⟨fun front i rest hsplit => by simp at hsplit, by rwa [List.append_nil]⟩
    | @token past next i hi _ ih =>
      refine ⟨fun front j rest hsplit => ?_, by simpa using ih.2⟩
      cases front with
      | nil =>
        cases hsplit
        rwa [List.append_nil]
      | cons a front =>
        rw [List.cons_append, List.cons.injEq] at hsplit
        have hj := ih.1 front j rest hsplit.2
        rw [← hsplit.1, List.append_cons]
        exact hj
  · rintro ⟨hoffer, hmem⟩
    induction next generalizing past with
    | nil => exact .done (by rwa [List.append_nil] at hmem)
    | cons i next ih =>
      refine .token ?_ (ih (fun front j rest hsplit => ?_) (by simpa using hmem))
      · simpa using hoffer [] i next rfl
      · simpa using hoffer (i :: front) j rest (by rw [hsplit, List.cons_append])

/-- Every token was taken from the offer. -/
def Follows (offer : List ι → Set ι) (past : List ι) : Prop :=
  ∀ front i rest, past = front ++ i :: rest → i ∈ offer front

theorem follows_concat : Follows offer (past ++ [i]) ↔ Follows offer past ∧ i ∈ offer past := by
  constructor
  · intro h
    exact ⟨fun front j rest hsplit => h front j (rest ++ [i]) (by rw [hsplit]; simp), h past i [] rfl⟩
  · rintro ⟨h, hi⟩ front j rest hsplit
    rcases List.eq_nil_or_concat rest with rfl | ⟨rest, a, rfl⟩
    · obtain ⟨rfl, hlast⟩ := List.append_inj' hsplit rfl
      rw [List.singleton_inj] at hlast
      rwa [← hlast]
    · rw [List.concat_eq_append, ← List.cons_append, ← List.append_assoc] at hsplit
      exact h front j rest (List.append_inj' hsplit rfl).1

/-- **A decoder that offers less emits less**; only what it offers behind
streams of its own has to be compared. -/
theorem Emits.mono (h : Emits L sign offer past next) (hpast : Follows offer past)
    (hle : ∀ p, Follows offer p → offer p ⊆ offer' p) : Emits L sign offer' past next := by
  induction h with
  | done h => exact .done h
  | token hi _ ih => exact .token (hle _ hpast hi) (ih (follows_concat.mpr ⟨hpast, hi⟩))

/-- The tokens are known, and each end token stands behind a word. -/
def WellSigned (L : Set (List β)) (sign : ι → Sign β) (is : List ι) : Prop :=
  (∀ i ∈ is, sign i ≠ .unknown) ∧
    ∀ front i rest, is = front ++ i :: rest → sign i = .stop → textOf sign front ∈ L

/-- **The ideal decoder emits what the tokens spell of the language**, and
nothing else. -/
theorem emits_ideal {is : List ι} : Emits L sign (fun p => ideal L sign (textOf sign p)) [] is ↔
    WellSigned L sign is ∧ textOf sign is ∈ L := by
  rw [emits_iff, List.nil_append]
  refine and_congr_left fun hmem => ?_
  constructor
  · intro hoffer
    refine ⟨fun i hi => ?_, fun front i rest hsplit hstop => ?_⟩
    · obtain ⟨front, rest, hsplit⟩ := List.append_of_mem hi
      rcases hoffer front i rest hsplit with ⟨w, hw, _⟩ | ⟨hstop, _⟩
      · simp [hw]
      · simp [hstop]
    · rcases hoffer front i rest hsplit with ⟨w, hw, _⟩ | ⟨_, hword⟩
      · simp [hw] at hstop
      · exact hword
  · rintro ⟨hknown, hstops⟩ front i rest hsplit
    cases hsign : sign i with
    | unknown => exact absurd hsign (hknown i (by rw [hsplit]; simp))
    | stop => exact .inr ⟨hsign, hstops front i rest hsplit hsign⟩
    | text w =>
      refine .inl ⟨w, hsign, textOf sign rest, ?_⟩
      rw [hsplit, textOf_append, textOf_cons, hsign, ← List.append_assoc] at hmem
      exact hmem

end PureCard.Decoding
