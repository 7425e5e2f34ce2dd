/-
PureCard.Lib.Ebnf — grammars in extended Backus–Naur form, and a check
that a pushdown machine reads every sentence of one.

`Derives` is the meaning of a grammar: one constructor per EBNF form.
Repetition and recursion are derivations of unbounded height, so "the
machine reads every sentence" is not a computation. What makes it one is
a CONTRACT per nonterminal: a list of pairs of regions, each saying that
from the states of the first, over a stack that begins with its frames,
every sentence of the nonterminal is read to a state of the second over
its frames. Under the contracts an expression has an image, computed by
recursion on the expression (`image`), with a loop closed by iterating
its body until no state is new.

`Derives.read` is the rule: if every right-hand side meets the contracts
of its nonterminal, with the contracts assumed at the nonterminals it
mentions, then every derivation does what the image says. It is the
procedure rule of a program logic, with the derivation in the place of
the call tree, and the check of a right-hand side is a closed
computation.
-/
import Mathlib.Data.List.Dedup
import PureCard.Lib.Pushdown

namespace PureCard.Pushdown

/-! ## Grammars -/

/-- An EBNF expression over the nonterminals `ν` and the symbols `β`. A
terminal is one of finitely many words: a quoted text is one word, a
class of symbols as many words of length one. -/
inductive Ebnf (ν β : Type) where
  | terminal (words : List (List β))
  | rule (n : ν)
  | seq (a b : Ebnf ν β)
  | alt (a b : Ebnf ν β)
  | opt (a : Ebnf ν β)
  | rep (a : Ebnf ν β)

variable {ν β σ φ : Type}

namespace Ebnf

instance : Append (Ebnf ν β) := ⟨.seq⟩

instance : OrOp (Ebnf ν β) := ⟨.alt⟩

end Ebnf

/-- `Derives rules e w`: `w` is a sentence of `e`. -/
inductive Derives (rules : ν → Ebnf ν β) : Ebnf ν β → List β → Prop where
  | terminal {words : List (List β)} {w : List β} (h : w ∈ words) :
      Derives rules (.terminal words) w
  | rule {n : ν} {w : List β} (h : Derives rules (rules n) w) : Derives rules (.rule n) w
  | seq {a b : Ebnf ν β} {u v : List β} (ha : Derives rules a u) (hb : Derives rules b v) :
      Derives rules (.seq a b) (u ++ v)
  | altLeft {a b : Ebnf ν β} {w : List β} (h : Derives rules a w) : Derives rules (.alt a b) w
  | altRight {a b : Ebnf ν β} {w : List β} (h : Derives rules b w) : Derives rules (.alt a b) w
  | optNone {a : Ebnf ν β} : Derives rules (.opt a) []
  | optSome {a : Ebnf ν β} {w : List β} (h : Derives rules a w) : Derives rules (.opt a) w
  | repNil {a : Ebnf ν β} : Derives rules (.rep a) []
  | repCons {a : Ebnf ν β} {u v : List β} (ha : Derives rules a u)
      (hrest : Derives rules (.rep a) v) : Derives rules (.rep a) (u ++ v)

/-- A list of one item. -/
theorem Derives.one {rules : ν → Ebnf ν β} {a b : Ebnf ν β} {w : List β}
    (h : Derives rules a w) : Derives rules (a ++ Ebnf.rep b) w := by
  have hlist : Derives rules (a ++ Ebnf.rep b) (w ++ []) := .seq h .repNil
  simpa using hlist

/-- A sequence without its optional end. -/
theorem Derives.without {rules : ν → Ebnf ν β} {a b : Ebnf ν β} {w : List β}
    (h : Derives rules a w) : Derives rules (a ++ Ebnf.opt b) w := by
  have hend : Derives rules (a ++ Ebnf.opt b) (w ++ []) := .seq h .optNone
  simpa using hend

/-- The two halves of a sentence of a sequence. -/
theorem Derives.of_seq {rules : ν → Ebnf ν β} {a b : Ebnf ν β} {w : List β}
    (h : Derives rules (a ++ b) w) :
    ∃ u v, w = u ++ v ∧ Derives rules a u ∧ Derives rules b v := by
  cases h with
  | seq ha hb => exact ⟨_, _, rfl, ha, hb⟩

theorem Derives.of_rule {rules : ν → Ebnf ν β} {n : ν} {w : List β}
    (h : Derives rules (.rule n) w) : Derives rules (rules n) w := by
  cases h with
  | rule h => exact h

/-- A repetition grows at its end too. -/
theorem Derives.rep_concat {rules : ν → Ebnf ν β} {a : Ebnf ν β} {u v : List β}
    (hu : Derives rules (.rep a) u) (hv : Derives rules a v) : Derives rules (.rep a) (u ++ v) := by
  generalize he : Ebnf.rep a = e at hu
  induction hu with
  | repNil =>
    cases he
    simpa using Derives.repCons hv .repNil
  | repCons ha _ _ ih =>
    cases he
    rw [List.append_assoc]
    exact .repCons ha (ih rfl)
  | _ => cases he

/-- A sentence of a sequence grows where its second half does. -/
theorem Derives.seq_concat {rules : ν → Ebnf ν β} {a b c : Ebnf ν β} {w v : List β}
    (h : Derives rules (a ++ b) w)
    (hb : ∀ u, Derives rules b u → Derives rules c (u ++ v)) : Derives rules (a ++ c) (w ++ v) := by
  obtain ⟨u, u', rfl, hu, hu'⟩ := h.of_seq
  rw [List.append_assoc]
  exact .seq hu (hb u' hu')

/-! ## Regions -/

/-- Some states, over a stack that begins with the given frames. -/
structure Region (σ φ : Type) where
  states : List σ
  frames : List φ

/-- Reading `w` from anywhere in `P` ends in `Q`, over the same stack
beneath. -/
def Reads (δ : σ → Option φ → β → Move σ φ) (P : Region σ φ) (w : List β)
    (Q : Region σ φ) : Prop :=
  ∀ base, ∀ s ∈ P.states, ∃ s' ∈ Q.states,
    run δ (s, P.frames ++ base) w = some (s', Q.frames ++ base)

namespace Reads

variable {δ : σ → Option φ → β → Move σ φ} {P Q R : Region σ φ} {u v w : List β}

theorem skip (hsub : ∀ s ∈ P.states, s ∈ Q.states) (hframes : P.frames = Q.frames) :
    Reads δ P [] Q := by
  intro base s hs
  exact ⟨s, hsub s hs, by rw [hframes]; rfl⟩

theorem append (hu : Reads δ P u Q) (hv : Reads δ Q v R) : Reads δ P (u ++ v) R := by
  intro base s hs
  obtain ⟨s', hs', hrun⟩ := hu base s hs
  obtain ⟨s'', hs'', hrun'⟩ := hv base s' hs'
  refine ⟨s'', hs'', ?_⟩
  rw [run_append, hrun]
  exact hrun'

/-- A smaller region before, a larger one after. -/
theorem weaken {P' Q' : Region σ φ} (h : Reads δ P w Q)
    (hpre : ∀ s ∈ P'.states, s ∈ P.states) (hpf : P'.frames = P.frames)
    (hpost : ∀ s ∈ Q.states, s ∈ Q'.states) (hqf : Q.frames = Q'.frames) :
    Reads δ P' w Q' := by
  intro base s hs
  obtain ⟨s', hs', hrun⟩ := h base s (hpre s hs)
  exact ⟨s', hpost s' hs', by rw [hpf, hrun, hqf]⟩

/-- Frames under the region stay where they are. -/
theorem beneath (h : Reads δ P w Q) (st : List φ) :
    Reads δ ⟨P.states, P.frames ++ st⟩ w ⟨Q.states, Q.frames ++ st⟩ := by
  intro base s hs
  obtain ⟨s', hs', hrun⟩ := h (st ++ base) s hs
  exact ⟨s', hs', by simpa only [List.append_assoc] using hrun⟩

end Reads

namespace Region

variable [DecidableEq σ] [DecidableEq φ]

/-- Every configuration of `P` is one of `Q`. -/
def within (P Q : Region σ φ) : Bool :=
  P.states.all (fun s => decide (s ∈ Q.states)) && decide (P.frames = Q.frames)

theorem within_iff {P Q : Region σ φ} :
    P.within Q = true ↔ (∀ s ∈ P.states, s ∈ Q.states) ∧ P.frames = Q.frames := by
  simp [within]

/-- The configurations of either, when both have the same frames. -/
def join (P Q : Region σ φ) : Option (Region σ φ) :=
  if P.frames = Q.frames then some ⟨P.states ∪ Q.states, P.frames⟩ else none

theorem join_eq_some {P Q R : Region σ φ} (h : P.join Q = some R) :
    (∀ s ∈ P.states, s ∈ R.states) ∧ (∀ s ∈ Q.states, s ∈ R.states) ∧
      P.frames = R.frames ∧ Q.frames = R.frames := by
  unfold join at h
  split at h
  · cases h
    refine ⟨fun s hs => ?_, fun s hs => ?_, rfl, ?_⟩
    · exact List.mem_union_iff.mpr (.inl hs)
    · exact List.mem_union_iff.mpr (.inr hs)
    · exact Eq.symm ‹_›
  · cases h

/-- Where the machine is after one of `words`, if it reads each of them
from every state of the region and they all leave the same frames. -/
def after (δ : σ → Option φ → β → Move σ φ) (words : List (List β)) (P : Region σ φ) :
    Option (Region σ φ) :=
  let ends := P.states.flatMap fun s => words.map fun w => run δ (s, P.frames) w
  match ends with
  | some c :: _ =>
    if ends.all fun e => decide (e.map Prod.snd = some c.2) then
      some ⟨(ends.filterMap fun e => e.map Prod.fst).dedup, c.2⟩
    else none
  | _ => none

theorem after_eq_some {δ : σ → Option φ → β → Move σ φ} {words : List (List β)}
    {P Q : Region σ φ} (h : P.after δ words = some Q) {s : σ} (hs : s ∈ P.states)
    {w : List β} (hw : w ∈ words) :
    ∃ s' ∈ Q.states, run δ (s, P.frames) w = some (s', Q.frames) := by
  have hmem : run δ (s, P.frames) w ∈
      P.states.flatMap fun s => words.map fun w => run δ (s, P.frames) w :=
    List.mem_flatMap.mpr ⟨s, hs, List.mem_map.mpr ⟨w, hw, rfl⟩⟩
  simp only [after] at h
  split at h
  · rename_i c rest hends
    split at h
    · rename_i hall
      cases h
      have hsnd := List.all_eq_true.mp hall _ hmem
      rw [decide_eq_true_eq, Option.map_eq_some_iff] at hsnd
      obtain ⟨⟨s', st⟩, hrun, hst⟩ := hsnd
      refine ⟨s', List.mem_dedup.mpr (List.mem_filterMap.mpr ⟨_, hmem, ?_⟩), ?_⟩
      · rw [hrun]
        rfl
      · rw [hrun, ← hst]
    · cases h
  · cases h

end Region

/-! ## The image of an expression -/

section

variable [DecidableEq σ] [DecidableEq φ]

/-- Close a region under `f`: apply it until no state is new. -/
def saturate (f : Region σ φ → Option (Region σ φ)) : Nat → Region σ φ → Option (Region σ φ)
  | 0, _ => none
  | fuel + 1, P =>
    match f P with
    | none => none
    | some K => if K.within P then some P else (P.join K).bind (saturate f fuel)

/-- A closed region is its own closure. -/
theorem saturate_eq_some {f : Region σ φ → Option (Region σ φ)} {fuel : Nat}
    {P J : Region σ φ} (h : saturate f fuel P = some J) :
    (∀ s ∈ P.states, s ∈ J.states) ∧ P.frames = J.frames ∧
      (∃ K, f J = some K ∧ K.within J = true) ∧ saturate f fuel J = some J := by
  induction fuel generalizing P with
  | zero => cases h
  | succ fuel ih =>
    rw [saturate] at h
    cases hf : f P with
    | none => rw [hf] at h; cases h
    | some K =>
      rw [hf] at h
      simp only at h
      split at h
      · rename_i hK
        cases h
        refine ⟨fun s hs => hs, rfl, ⟨K, hf, hK⟩, ?_⟩
        rw [saturate, hf]
        simp only [hK, if_true]
      · obtain ⟨R, hR, hrest⟩ := Option.bind_eq_some_iff.mp h
        obtain ⟨hPR, -, hframes, -⟩ := Region.join_eq_some hR
        obtain ⟨hsub, hfr, ⟨K', hK', hw⟩, -⟩ := ih hrest
        refine ⟨fun s hs => hsub s (hPR s hs), hframes.trans hfr, ⟨K', hK', hw⟩, ?_⟩
        rw [saturate, hK']
        simp only [hw, if_true]

/-- The contracts of the nonterminals: from the first region, every
sentence is read to the second. -/
abbrev Contracts (ν σ φ : Type) := ν → List (Region σ φ × Region σ φ)

/-- What a list of contracts promises of a region. -/
def promise (P : Region σ φ) : List (Region σ φ × Region σ φ) → Option (Region σ φ)
  | [] => none
  | (pre, post) :: rest =>
    if (P.states.all fun s => decide (s ∈ pre.states)) && pre.frames.isPrefixOf P.frames then
      some ⟨post.states, post.frames ++ P.frames.drop pre.frames.length⟩
    else promise P rest

theorem promise_eq_some {P Q : Region σ φ} {cs : List (Region σ φ × Region σ φ)}
    (h : promise P cs = some Q) :
    ∃ pre post, (pre, post) ∈ cs ∧ (∀ s ∈ P.states, s ∈ pre.states) ∧
      ∃ beneath, P.frames = pre.frames ++ beneath ∧ Q = ⟨post.states, post.frames ++ beneath⟩ := by
  induction cs with
  | nil => cases h
  | cons c cs ih =>
    obtain ⟨pre, post⟩ := c
    rw [promise] at h
    split at h
    · rename_i hc
      cases h
      rw [Bool.and_eq_true, List.all_eq_true, List.isPrefixOf_iff_prefix] at hc
      obtain ⟨beneath, hbeneath⟩ := hc.2
      refine ⟨pre, post, List.mem_cons_self, fun s hs => by simpa using hc.1 s hs, beneath,
        hbeneath.symm, ?_⟩
      rw [← hbeneath, List.drop_left]
    · obtain ⟨pre', post', hmem, hrest⟩ := ih h
      exact ⟨pre', post', List.mem_cons_of_mem _ hmem, hrest⟩

variable (δ : σ → Option φ → β → Move σ φ) (contracts : Contracts ν σ φ)

/-- Rounds a loop may take to close; more than any machine below needs. -/
def rounds : Nat := 8

/-- Where the machine is after a sentence of `e`, the contracts assumed
at its nonterminals. -/
def image : Ebnf ν β → Region σ φ → Option (Region σ φ)
  | .terminal words, P => P.after δ words
  | .rule n, P => promise P (contracts n)
  | .seq a b, P => (image a P).bind (image b)
  | .alt a b, P => (image a P).bind fun Q => (image b P).bind fun R => Q.join R
  | .opt a, P => (image a P).bind P.join
  | .rep a, P => saturate (image a) rounds P

/-- A right-hand side meets the contracts of its nonterminal. -/
def meets (rhs : Ebnf ν β) (cs : List (Region σ φ × Region σ φ)) : Bool :=
  cs.all fun c => (image δ contracts rhs c.1).any fun Q => Q.within c.2

variable {δ contracts}

theorem meets_iff {rhs : Ebnf ν β} {cs : List (Region σ φ × Region σ φ)} :
    meets δ contracts rhs cs = true ↔
      ∀ c ∈ cs, ∃ Q, image δ contracts rhs c.1 = some Q ∧ Q.within c.2 = true := by
  simp [meets, Option.any_eq_true]

theorem Reads.terminal (hδ : Framed δ) {words : List (List β)} {P Q : Region σ φ} {w : List β}
    (hw : w ∈ words)
    (h : P.after δ words = some Q) : Reads δ P w Q := by
  intro base s hs
  obtain ⟨s', hs', hrun⟩ := Region.after_eq_some h hs hw
  exact ⟨s', hs', hδ.run_frame base hrun⟩

/-- **Contracts are kept by every derivation** when every right-hand
side meets them. -/
theorem Derives.read (hδ : Framed δ) {rules : ν → Ebnf ν β}
    (hmeets : ∀ n, meets δ contracts (rules n) (contracts n) = true) {e : Ebnf ν β}
    {w : List β} (h : Derives rules e w) :
    ∀ {P Q : Region σ φ}, image δ contracts e P = some Q → Reads δ P w Q := by
  induction h with
  | terminal hw =>
    intro P Q himage
    exact .terminal hδ hw himage
  | @rule n w _ ih =>
    intro P Q himage
    obtain ⟨pre, post, hmem, hpre, st, hst, hQ⟩ := promise_eq_some himage
    obtain ⟨K, hK, hwithin⟩ := meets_iff.mp (hmeets n) _ hmem
    obtain ⟨hpost, hframes⟩ := Region.within_iff.mp hwithin
    have hcontract : Reads δ pre w post :=
      (ih hK).weaken (fun s hs => hs) rfl hpost hframes
    have hunder := hcontract.beneath st
    rw [hQ]
    exact hunder.weaken hpre hst (fun s hs => hs) rfl
  | seq _ _ iha ihb =>
    intro P Q himage
    obtain ⟨R, hR, hQ⟩ := Option.bind_eq_some_iff.mp himage
    exact (iha hR).append (ihb hQ)
  | altLeft _ ih =>
    intro P Q himage
    obtain ⟨A, hA, hrest⟩ := Option.bind_eq_some_iff.mp himage
    obtain ⟨B, -, hjoin⟩ := Option.bind_eq_some_iff.mp hrest
    obtain ⟨hsub, -, hframes, -⟩ := Region.join_eq_some hjoin
    exact (ih hA).weaken (fun s hs => hs) rfl hsub hframes
  | altRight _ ih =>
    intro P Q himage
    obtain ⟨A, -, hrest⟩ := Option.bind_eq_some_iff.mp himage
    obtain ⟨B, hB, hjoin⟩ := Option.bind_eq_some_iff.mp hrest
    obtain ⟨-, hsub, -, hframes⟩ := Region.join_eq_some hjoin
    exact (ih hB).weaken (fun s hs => hs) rfl hsub hframes
  | optNone =>
    intro P Q himage
    obtain ⟨A, -, hjoin⟩ := Option.bind_eq_some_iff.mp himage
    obtain ⟨hsub, -, hframes, -⟩ := Region.join_eq_some hjoin
    exact .skip hsub hframes
  | optSome _ ih =>
    intro P Q himage
    obtain ⟨A, hA, hjoin⟩ := Option.bind_eq_some_iff.mp himage
    obtain ⟨-, hsub, -, hframes⟩ := Region.join_eq_some hjoin
    exact (ih hA).weaken (fun s hs => hs) rfl hsub hframes
  | repNil =>
    intro P Q himage
    obtain ⟨hsub, hframes, -⟩ := saturate_eq_some himage
    exact .skip hsub hframes
  | repCons _ _ iha ihrest =>
    intro P Q himage
    -- the closed region is the loop invariant
    obtain ⟨hsub, hframes, ⟨K, hK, hwithin⟩, hagain⟩ := saturate_eq_some himage
    obtain ⟨hKQ, hKframes⟩ := Region.within_iff.mp hwithin
    have hbody := (iha hK).weaken hsub hframes hKQ hKframes
    exact hbody.append (ihrest hagain)

end

end PureCard.Pushdown
