/-
PureCard.Lib.DepthFirst — depth-first searches that thread one `seen`
list.

A `Search` says where a node leads, what entering and leaving it does to a
state, and in which states the search stops. Recursive code of this shape
marks a node as seen before it follows the node's edges, so a node met
again while it is still open is skipped.

`Visits` is the tree of calls of such a search, with no bound on it;
`visit` is the search under a bound on nested calls. `visits_visit` says
the bound is never met when it exceeds the number of nodes that lead
anywhere, so the search ends on every graph, cycles included.

What a search did is read off its tree: `Visits.invariant` for whatever
entering and leaving keep, `Visits.closed` for what it has seen when it
ran to its end, and `Visits.told_iff` for a fact that some node reports.
-/
import Mathlib.Data.List.Basic
import Mathlib.Logic.Relation

/-- A search over nodes `α` with a state `σ`. -/
structure Search (α σ : Type) where
  next : α → List α
  enter : α → σ → σ
  leave : α → σ → σ
  halted : σ → Bool

namespace Search

variable {α σ : Type} (g : Search α σ)

/-- One node leads to another along the search's edges. -/
def Reaches : α → α → Prop := Relation.ReflTransGen fun x y => y ∈ g.next x

/-- The calls that visit the nodes of a list in turn. -/
inductive Visits : List α → σ × List α → σ × List α → Prop where
  | nil {acc : σ × List α} : Visits [] acc acc
  | halt {xs : List α} {acc : σ × List α} (h : g.halted acc.1 = true) : Visits xs acc acc
  | seen {x : α} {xs seen : List α} {st : σ} {out : σ × List α} (hlive : g.halted st = false)
      (hx : x ∈ seen) (hrest : Visits xs (st, seen) out) : Visits (x :: xs) (st, seen) out
  | fresh {x : α} {xs seen seen₁ : List α} {st st₁ : σ} {out : σ × List α}
      (hlive : g.halted st = false) (hx : x ∉ seen)
      (hin : Visits (g.next x) (g.enter x st, seen ++ [x]) (st₁, seen₁))
      (hrest : Visits xs (g.leave x st₁, seen₁) out) : Visits (x :: xs) (st, seen) out

section

variable {g}

/-- A halted search goes nowhere. -/
theorem Visits.of_halted {xs : List α} {acc out : σ × List α} (h : g.Visits xs acc out)
    (hhalt : g.halted acc.1 = true) : out = acc := by
  cases h with
  | nil => rfl
  | halt => rfl
  | seen hlive => simp [hlive] at hhalt
  | fresh hlive => simp [hlive] at hhalt

/-- Visiting the head and then the tail. -/
theorem Visits.cons {x : α} {xs : List α} {acc mid out : σ × List α}
    (h : g.Visits [x] acc mid) (hrest : g.Visits xs mid out) : g.Visits (x :: xs) acc out := by
  cases h with
  | halt hhalt =>
    rw [hrest.of_halted hhalt]
    exact .halt hhalt
  | seen hlive hx hnil =>
    cases hnil with
    | nil => exact .seen hlive hx hrest
    | halt => exact .seen hlive hx hrest
  | fresh hlive hx hin hnil =>
    cases hnil with
    | nil => exact .fresh hlive hx hin hrest
    | halt => exact .fresh hlive hx hin hrest

/-- What entering and leaving a reached node keep holds at the end. -/
theorem Visits.invariant {P : σ × List α → Prop} {xs : List α} {acc out : σ × List α}
    (h : g.Visits xs acc out)
    (henter : ∀ y st seen, (∃ x ∈ xs, g.Reaches x y) → P (st, seen) →
      P (g.enter y st, seen ++ [y]))
    (hleave : ∀ y st seen, (∃ x ∈ xs, g.Reaches x y) → P (st, seen) → P (g.leave y st, seen))
    (hP : P acc) : P out := by
  induction h with
  | nil => exact hP
  | halt => exact hP
  | seen hlive hx hrest ih =>
    refine ih ?_ ?_ hP
    · rintro y st seen ⟨x, hmem, hreach⟩
      exact henter y st seen ⟨x, by simp [hmem], hreach⟩
    · rintro y st seen ⟨x, hmem, hreach⟩
      exact hleave y st seen ⟨x, by simp [hmem], hreach⟩
  | @fresh x xs seen seen₁ st st₁ out hlive hx hin hrest ihin ihrest =>
    have hself : ∃ x' ∈ x :: xs, g.Reaches x' x := ⟨x, by simp, .refl⟩
    have hdown : ∀ y, (∃ z ∈ g.next x, g.Reaches z y) → ∃ x' ∈ x :: xs, g.Reaches x' y := by
      rintro y ⟨z, hz, hreach⟩
      exact ⟨x, by simp, .head hz hreach⟩
    have hmid : P (st₁, seen₁) :=
      ihin (fun y st seen hy => henter y st seen (hdown y hy))
        (fun y st seen hy => hleave y st seen (hdown y hy)) (henter x st seen hself hP)
    refine ihrest ?_ ?_ (hleave x st₁ seen₁ hself hmid)
    · rintro y st seen ⟨x', hmem, hreach⟩
      exact henter y st seen ⟨x', by simp [hmem], hreach⟩
    · rintro y st seen ⟨x', hmem, hreach⟩
      exact hleave y st seen ⟨x', by simp [hmem], hreach⟩

theorem Visits.subset {xs : List α} {acc out : σ × List α} (h : g.Visits xs acc out) :
    acc.2 ⊆ out.2 := by
  apply h.invariant (P := fun now => acc.2 ⊆ now.2)
  · intro y st seen _ hsub x hx
    exact List.mem_append_left _ (hsub hx)
  · intro y st seen _ hsub
    exact hsub
  · exact fun _ hx => hx

/-- Only reached nodes are added to the seen ones. -/
theorem Visits.reached {xs : List α} {acc out : σ × List α} (h : g.Visits xs acc out) :
    ∀ y ∈ out.2, y ∈ acc.2 ∨ ∃ x ∈ xs, g.Reaches x y := by
  apply h.invariant (P := fun now => ∀ y ∈ now.2, y ∈ acc.2 ∨ ∃ x ∈ xs, g.Reaches x y)
  · intro y st seen hy hall z hz
    rcases List.mem_append.mp hz with hz | hz
    · exact hall z hz
    · rw [List.mem_singleton.mp hz]
      exact .inr hy
  · intro y st seen _ hall
    exact hall
  · exact fun y hy => .inl hy

/-- A search that was not halted has seen every node it was sent to, and
the successors of every node it added. -/
theorem Visits.closed (hkeep : ∀ x st, g.halted st = true → g.halted (g.leave x st) = true)
    {xs : List α} {acc out : σ × List α} (h : g.Visits xs acc out)
    (hend : g.halted out.1 = false) :
    xs ⊆ out.2 ∧ ∀ y ∈ out.2, y ∉ acc.2 → g.next y ⊆ out.2 := by
  induction h with
  | nil =>
    refine ⟨List.nil_subset _, ?_⟩
    intro y hy hnew
    exact absurd hy hnew
  | halt hhalt => simp [hhalt] at hend
  | seen hlive hx hrest ih =>
    obtain ⟨hxs, hclosed⟩ := ih hend
    exact ⟨List.cons_subset.mpr ⟨hrest.subset hx, hxs⟩, hclosed⟩
  | @fresh x xs seen seen₁ st st₁ out hlive hx hin hrest ihin ihrest =>
    have hleft : g.halted (g.leave x st₁) = false := by
      by_contra hhalt
      have hout := hrest.of_halted (Bool.not_eq_false _ |>.mp hhalt)
      rw [hout] at hend
      exact hhalt hend
    have hmid : g.halted st₁ = false := by
      by_contra hhalt
      have hstill := hkeep x st₁ (Bool.not_eq_false _ |>.mp hhalt)
      rw [hleft] at hstill
      cases hstill
    obtain ⟨hnext, hin'⟩ := ihin hmid
    obtain ⟨hxs, hrest'⟩ := ihrest hend
    have hxseen : x ∈ seen₁ := hin.subset (by simp)
    refine ⟨List.cons_subset.mpr ⟨hrest.subset hxseen, hxs⟩, ?_⟩
    intro y hy hnew
    by_cases hyseen : y ∈ seen₁
    · by_cases hyx : y = x
      · subst hyx
        exact fun z hz => hrest.subset (hnext hz)
      · have hyfresh : y ∉ seen ++ [x] := by simp [hyx, hnew]
        exact fun z hz => hrest.subset (hin' y hyseen hyfresh hz)
    · exact hrest' y hy hyseen

/-- From an empty list, a search that was not halted has seen exactly the
nodes it reaches. -/
theorem Visits.mem_iff (hkeep : ∀ x st, g.halted st = true → g.halted (g.leave x st) = true)
    {x y : α} {st : σ} {out : σ × List α} (h : g.Visits [x] (st, []) out)
    (hend : g.halted out.1 = false) : y ∈ out.2 ↔ g.Reaches x y := by
  constructor
  · intro hy
    rcases h.reached y hy with hseen | ⟨x', hx', hreach⟩
    · cases hseen
    · rwa [List.mem_singleton.mp hx'] at hreach
  · obtain ⟨hstart, hclosed⟩ := h.closed hkeep hend
    intro hreach
    induction hreach with
    | refl => exact hstart (by simp)
    | tail _ hstep ih => exact hclosed _ ih List.not_mem_nil hstep

/-! ## A fact that some node reports -/

/-- `told` is the fact that some node reports: `E` what it reports when it
is entered, `L` when it is left. A halted search has been told. -/
structure Reports (g : Search α σ) (told : σ → Prop) (E L : α → Prop) : Prop where
  enter : ∀ x st, told (g.enter x st) ↔ told st ∨ E x
  leave : ∀ x st, told (g.leave x st) ↔ told st ∨ L x
  halted : ∀ st, g.halted st = true → told st
  keep : ∀ x st, g.halted st = true → g.halted (g.leave x st) = true

variable {told : σ → Prop} {E L : α → Prop}

theorem Reports.mono (hg : Reports g told E L) {xs : List α} {acc out : σ × List α}
    (h : g.Visits xs acc out) (htold : told acc.1) : told out.1 := by
  apply h.invariant (P := fun now => told now.1)
  · intro y st seen _ hst
    exact (hg.enter y st).mpr (.inl hst)
  · intro y st seen _ hst
    exact (hg.leave y st).mpr (.inl hst)
  · exact htold

/-- What an added node reports has been told at the end. -/
theorem Reports.of_added (hg : Reports g told E L) {xs : List α} {acc out : σ × List α}
    (h : g.Visits xs acc out) :
    ∀ y ∈ out.2, y ∉ acc.2 → E y ∨ L y → g.halted out.1 = false → told out.1 := by
  induction h with
  | nil =>
    intro y hy hnew
    exact absurd hy hnew
  | halt hhalt =>
    intro y _ _ _ hend
    simp [hhalt] at hend
  | seen hlive hx hrest ih => exact ih
  | @fresh x xs seen seen₁ st st₁ out hlive hx hin hrest ihin ihrest =>
    intro y hy hnew hy' hend
    by_cases hyseen : y ∈ seen₁
    · apply hg.mono hrest
      rw [hg.leave]
      by_cases hyx : y = x
      · subst hyx
        refine hy'.imp ?_ id
        intro hE
        exact hg.mono hin ((hg.enter y st).mpr (.inr hE))
      · left
        cases hhalt : g.halted st₁ with
        | true => exact hg.halted st₁ hhalt
        | false => exact ihin y hyseen (by simp [hyx, hnew]) hy' hhalt
    · exact ihrest y hy hyseen hy' hend

/-- A search tells exactly what some node it reaches reports. -/
theorem Reports.told_iff (hg : Reports g told E L) {x : α} {st : σ} {out : σ × List α}
    (h : g.Visits [x] (st, []) out) :
    told out.1 ↔ told st ∨ ∃ y, g.Reaches x y ∧ (E y ∨ L y) := by
  constructor
  · have hstart : told st → told st ∨ ∃ y, g.Reaches x y ∧ (E y ∨ L y) := Or.inl
    apply h.invariant (P := fun now => told now.1 →
      told st ∨ ∃ y, g.Reaches x y ∧ (E y ∨ L y)) ?_ ?_ hstart
    · rintro y st' seen ⟨x', hx', hreach⟩ hst htold
      rw [List.mem_singleton.mp hx'] at hreach
      rcases (hg.enter y st').mp htold with hold | hE
      · exact hst hold
      · exact .inr ⟨y, hreach, .inl hE⟩
    · rintro y st' seen ⟨x', hx', hreach⟩ hst htold
      rw [List.mem_singleton.mp hx'] at hreach
      rcases (hg.leave y st').mp htold with hold | hL
      · exact hst hold
      · exact .inr ⟨y, hreach, .inr hL⟩
  · rintro (htold | ⟨y, hreach, hy⟩)
    · exact hg.mono h htold
    · cases hhalt : g.halted out.1 with
      | true => exact hg.halted out.1 hhalt
      | false =>
        have hmem : y ∈ out.2 := (h.mem_iff hg.keep hhalt).mpr hreach
        exact hg.of_added h y hmem List.not_mem_nil hy hhalt

end

/-! ## The search under a bound -/

section

variable [DecidableEq α]

/-- The search, with at most `fuel` calls nested. -/
def visit : Nat → α → σ × List α → σ × List α
  | 0, _, acc => acc
  | fuel + 1, x, (st, seen) =>
    if x ∈ seen then (st, seen)
    else
      let acc := (g.next x).foldl (fun acc y => if g.halted acc.1 then acc else visit fuel y acc)
        (g.enter x st, seen ++ [x])
      (g.leave x acc.1, acc.2)

/-- A halted search passes over the nodes it is still sent to. -/
theorem foldl_halted {acc : σ × List α} (h : g.halted acc.1 = true) (fuel : Nat) (xs : List α) :
    xs.foldl (fun acc y => if g.halted acc.1 then acc else g.visit fuel y acc) acc = acc := by
  induction xs with
  | nil => rfl
  | cons x xs ih =>
    rw [List.foldl_cons, if_pos h]
    exact ih

/-- The nodes of `keys` that have not been seen. -/
def unseen (keys seen : List α) : Nat := (keys.filter fun x => x ∉ seen).length

theorem unseen_mono (keys : List α) {seen seen' : List α} (h : seen ⊆ seen') :
    unseen keys seen' ≤ unseen keys seen := by
  apply List.Sublist.length_le
  apply List.monotone_filter_right
  intro x hx
  simp only [decide_eq_true_eq] at hx ⊢
  exact fun hmem => hx (h hmem)

/-- Seeing one more of the keys leaves fewer of them. -/
theorem unseen_lt {keys seen : List α} {x : α} (hx : x ∈ keys) (hnew : x ∉ seen) :
    unseen keys (seen ++ [x]) < unseen keys seen := by
  have hsplit : (keys.filter fun y => y ∉ seen ++ [x]) =
      (keys.filter fun y => y ∉ seen).filter fun y => y ≠ x := by
    rw [List.filter_filter]
    apply List.filter_congr
    intro y _
    by_cases hy : y = x <;> simp [hy]
  rw [unseen, hsplit]
  apply List.length_filter_lt_length_iff_exists.mpr
  exact ⟨x, by simp [hx, hnew], by simp⟩

/-- A bound above the number of keys yet to be seen is never met, where
the keys are all the nodes that lead anywhere. -/
theorem visits_visit {keys : List α} (hkeys : ∀ x, x ∉ keys → g.next x = []) :
    ∀ (fuel : Nat) (x : α) (acc : σ × List α), unseen keys acc.2 < fuel →
      g.halted acc.1 = false → g.Visits [x] acc (g.visit fuel x acc) := by
  intro fuel
  induction fuel with
  | zero => intro x acc hfuel; omega
  | succ fuel ih =>
    have hloop : ∀ (ys : List α) (acc : σ × List α), (ys ≠ [] → unseen keys acc.2 < fuel) →
        g.Visits ys acc
          (ys.foldl (fun acc y => if g.halted acc.1 then acc else g.visit fuel y acc) acc) := by
      intro ys
      induction ys with
      | nil => intro acc _; exact .nil
      | cons y ys ihys =>
        intro acc hfuel
        rw [List.foldl_cons]
        by_cases hhalt : g.halted acc.1 = true
        · rw [if_pos hhalt]
          have hrest := ihys acc fun _ => hfuel (by simp)
          rw [hrest.of_halted hhalt]
          exact .halt hhalt
        · rw [if_neg hhalt]
          have hhead := ih y acc (hfuel (by simp)) (Bool.not_eq_true _ |>.mp hhalt)
          apply hhead.cons
          apply ihys
          intro _
          exact Nat.lt_of_le_of_lt (unseen_mono keys hhead.subset) (hfuel (by simp))
    rintro x ⟨st, seen⟩ hfuel hlive
    rw [visit]
    by_cases hx : x ∈ seen
    · rw [if_pos hx]
      exact .seen hlive hx .nil
    · rw [if_neg hx]
      refine .fresh hlive hx (hloop _ _ ?_) .nil
      intro hne
      have hmem : x ∈ keys := by
        by_contra hout
        exact hne (hkeys x hout)
      have hlt := unseen_lt hmem hx
      show unseen keys (seen ++ [x]) < fuel
      have hle : unseen keys seen < fuel + 1 := hfuel
      omega

end

end Search
