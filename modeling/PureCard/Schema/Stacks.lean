/-
PureCard.Schema.Stacks — the stacks of the tracker under its depth.

The tracker keeps six stacks, by its own count of the open delimiters:
receivers and tilde flags, one for each delimiter, and depths, of the open
establishing and column lists, of the binder saves and of the scope saves.
`Stacked` says that they are in order under the depth. One dispatch keeps
it, whatever the piece, and moves the depth as the piece nests
(`Stacked.dispatch`); a run of dispatches follows.
-/
import PureCard.Schema.Nesting

namespace PureCard

open Scopes ScopeTracker

/-! ## Depths on a stack -/

/-- Depths of open delimiters, the innermost first. -/
def Rising (depth : Nat) (ds : List Nat) : Prop :=
  ds.Pairwise (· > ·) ∧ ∀ d ∈ ds, 1 ≤ d ∧ d ≤ depth

/-- Depths at which something was saved, the latest first. -/
def Settling (depth : Nat) (ds : List Nat) : Prop :=
  ds.Pairwise (· ≥ ·) ∧ ∀ d ∈ ds, d ≤ depth

theorem Rising.open {n : Nat} {ds : List Nat} (h : Rising n ds) : Rising (n + 1) ds := by
  refine ⟨h.1, ?_⟩
  intro d hd
  have hd' := h.2 d hd
  omega

theorem Rising.push {n : Nat} {ds : List Nat} (h : Rising n ds) : Rising (n + 1) ((n + 1) :: ds) := by
  refine ⟨List.pairwise_cons.mpr ⟨?_, h.1⟩, ?_⟩
  · intro d hd
    have hd' := h.2 d hd
    omega
  · intro d hd
    rcases List.mem_cons.mp hd with rfl | hd
    · omega
    · have hd' := h.2 d hd
      omega

/-- At the closer of depth `n + 1` its own entry goes. -/
theorem Rising.close {n : Nat} {ds : List Nat} (h : Rising (n + 1) ds) :
    Rising n (if ds.head? = some (n + 1) then ds.tail else ds) := by
  cases ds with
  | nil => exact ⟨.nil, fun d hd => by cases hd⟩
  | cons x xs =>
    obtain ⟨hpair, hle⟩ := h
    obtain ⟨hx, hxs⟩ := List.pairwise_cons.mp hpair
    have hbound := hle x List.mem_cons_self
    by_cases hhead : x = n + 1
    · rw [List.head?_cons, if_pos (congrArg some hhead), List.tail_cons]
      refine ⟨hxs, ?_⟩
      intro d hd
      have h1 := hx d hd
      have h2 := hle d (List.mem_cons_of_mem x hd)
      omega
    · rw [List.head?_cons, if_neg (fun heq => hhead (Option.some.inj heq))]
      refine ⟨hpair, ?_⟩
      intro d hd
      rcases List.mem_cons.mp hd with rfl | hd
      · omega
      · have h1 := hx d hd
        have h2 := hle d (List.mem_cons_of_mem x hd)
        omega

/-- No entry is of a depth not reached. -/
theorem Rising.head_ne {n : Nat} {ds : List Nat} (h : Rising n ds) : ds.head? ≠ some (n + 1) := by
  cases ds with
  | nil => simp
  | cons d ds =>
    intro hd
    have hle := (h.2 d List.mem_cons_self).2
    have heq : d = n + 1 := Option.some.inj hd
    omega

theorem Settling.open {n : Nat} {ds : List Nat} (h : Settling n ds) : Settling (n + 1) ds := by
  refine ⟨h.1, ?_⟩
  intro d hd
  have hd' := h.2 d hd
  omega

theorem Settling.push {n : Nat} {ds : List Nat} (h : Settling n ds) : Settling n (n :: ds) := by
  refine ⟨List.pairwise_cons.mpr ⟨h.2, h.1⟩, ?_⟩
  intro d hd
  rcases List.mem_cons.mp hd with rfl | hd
  · omega
  · exact h.2 d hd

/-- At the closer of depth `n + 1` its saves go. -/
theorem Settling.close {n : Nat} {ds : List Nat} (h : Settling (n + 1) ds) :
    Settling n (ds.dropWhile (· == n + 1)) := by
  induction ds with
  | nil => exact ⟨.nil, fun d hd => by cases hd⟩
  | cons x xs ih =>
    obtain ⟨hpair, hle⟩ := h
    obtain ⟨hx, hxs⟩ := List.pairwise_cons.mp hpair
    by_cases hhead : x = n + 1
    · rw [List.dropWhile_cons_of_pos (by simpa using hhead)]
      exact ih ⟨hxs, fun d hd => hle d (List.mem_cons_of_mem x hd)⟩
    · rw [List.dropWhile_cons_of_neg (by simpa using hhead)]
      have hbound := hle x List.mem_cons_self
      refine ⟨hpair, ?_⟩
      intro d hd
      rcases List.mem_cons.mp hd with rfl | hd
      · omega
      · have h1 := hx d hd
        omega

/-! ## The stacks of the tracker -/

namespace ScopeTracker

/-- The stacks of the tracker are in order under its depth. -/
structure Stacked (t : ScopeTracker) : Prop where
  receivers : t.parenReceiver.length = t.depth
  brackets : t.tildeOpen.length = t.depth
  est : Rising t.depth t.estStack
  ref : Rising t.depth t.refStack
  binders : Settling t.depth (t.binderSaves.map BinderSave.depth)
  scopes : Settling t.depth (t.scopeSaves.map ScopeSave.depth)

theorem stacked_new : new.Stacked :=
  ⟨rfl, rfl, ⟨.nil, fun d hd => by cases hd⟩, ⟨.nil, fun d hd => by cases hd⟩,
    ⟨.nil, fun d hd => by cases hd⟩, ⟨.nil, fun d hd => by cases hd⟩⟩

/-- The depth and the stacks, and nothing else of the tracker. -/
def nestStacks (t : ScopeTracker) : Nat × List (Option Bytes) × List Bool × List Nat × List Nat ×
    List BinderSave × List ScopeSave :=
  (t.depth, t.parenReceiver, t.tildeOpen, t.estStack, t.refStack, t.binderSaves, t.scopeSaves)

theorem Stacked.congr {t t' : ScopeTracker} (h : t.Stacked) (hsame : t'.nestStacks = t.nestStacks) :
    t'.Stacked := by
  simp only [nestStacks, Prod.mk.injEq] at hsame
  obtain ⟨h1, h2, h3, h4, h5, h6, h7⟩ := hsame
  refine ⟨?_, ?_, ?_, ?_, ?_, ?_⟩
  · rw [h1, h2]
    exact h.receivers
  · rw [h1, h3]
    exact h.brackets
  · rw [h1, h4]
    exact h.est
  · rw [h1, h5]
    exact h.ref
  · rw [h1, h6]
    exact h.binders
  · rw [h1, h7]
    exact h.scopes

theorem nestStacks_onIdent (t : ScopeTracker) (text : Bytes) (preState : State) (schema : Schema) :
    (t.onIdent text preState schema).1.nestStacks = t.nestStacks := by
  have hmember : ∀ u : ScopeTracker, (u.resolveMember text schema).1.nestStacks = u.nestStacks := by
    intro u
    unfold resolveMember
    repeat' split
    all_goals rfl
  have hbind : ∀ u : ScopeTracker, (u.bindIdent text preState schema).1.nestStacks = u.nestStacks := by
    intro u
    unfold bindIdent
    repeat' split
    all_goals first | rfl | exact hmember u
  rw [onIdent_eq]
  exact hbind (t.sawClass text schema)

theorem nestStacks_onDot (t : ScopeTracker) : t.onDot.nestStacks = t.nestStacks := by
  unfold onDot
  dsimp only
  repeat' split
  all_goals rfl

theorem Stacked.onPipe {t : ScopeTracker} (h : t.Stacked) (preState : State) :
    (t.onPipe preState).Stacked ∧ (t.onPipe preState).depth = t.depth := by
  have hsaved : ({ t with
      scopeSaves := ⟨t.depth, t.curClass, t.relExplicit, t.sawTildeBracket⟩ :: t.scopeSaves } :
      ScopeTracker).Stacked :=
    ⟨h.receivers, h.brackets, h.est, h.ref, h.binders, h.scopes.push⟩
  unfold ScopeTracker.onPipe
  by_cases hstart : preState = .start ∨ preState = .expectSource
  · rw [if_pos hstart]
    exact ⟨h, rfl⟩
  · rw [if_neg hstart]
    cases hname : t.lambdaFirstIdent with
    | none => exact ⟨hsaved.congr rfl, rfl⟩
    | some name =>
      dsimp only
      by_cases hempty : name.isEmpty = true
      · rw [if_pos hempty]
        exact ⟨hsaved.congr rfl, rfl⟩
      · rw [if_neg hempty]
        unfold bindLambda
        dsimp only
        split
        all_goals
          exact ⟨⟨h.receivers, h.brackets, h.est, h.ref, h.binders.push, h.scopes.push⟩, rfl⟩

theorem Stacked.onOpen {t : ScopeTracker} (h : t.Stacked) (preState : State) :
    (t.onOpen preState).Stacked ∧ (t.onOpen preState).depth = t.depth + 1 := by
  have hreceivers : ∀ r : Option Bytes, (r :: t.parenReceiver).length = t.depth + 1 := fun r => by
    rw [List.length_cons, h.receivers]
  have hbrackets : ∀ b : Bool, (b :: t.tildeOpen).length = t.depth + 1 := fun b => by
    rw [List.length_cons, h.brackets]
  unfold ScopeTracker.onOpen
  dsimp only
  cases t.lastIdent with
  | none =>
    exact ⟨⟨hreceivers _, hbrackets _, h.est.open, h.ref.open, h.binders.open, h.scopes.open⟩, rfl⟩
  | some name =>
    unfold openMethod
    dsimp only
    have hest := h.est.push
    have href := h.ref.push
    split <;> split <;> split
    all_goals
      refine ⟨⟨hreceivers _, hbrackets _, ?_, ?_, h.binders.open, h.scopes.open⟩, rfl⟩
      · first | exact hest | exact h.est.open
      · first | exact href | exact h.ref.open

theorem Stacked.onClose {t : ScopeTracker} (h : t.Stacked) {n : Nat} (hn : t.depth = n + 1) :
    t.onClose.Stacked ∧ t.onClose.depth = n := by
  obtain ⟨h1, h2, h3, h4, h5, h6⟩ := h
  have hsaves : t.restoreBinders.restoreScopes.binderSaves =
        t.binderSaves.dropWhile (·.depth == t.depth) ∧
      t.restoreBinders.restoreScopes.scopeSaves =
        t.scopeSaves.dropWhile (·.depth == t.depth) := by
    rw [restoreScopes_eq, restoreBinders_eq]
    split <;> exact ⟨rfl, rfl⟩
  rw [hn] at h1 h2 h3 h4 h5 h6 hsaves
  have hb := h5.close
  have hs := h6.close
  rw [List.dropWhile_map] at hb hs
  rw [onClose_eq]
  dsimp only
  refine ⟨⟨?_, ?_, ?_, ?_, ?_, ?_⟩, ?_⟩
  · rw [List.length_tail]
    dsimp only
    omega
  · rw [List.length_tail]
    dsimp only
    omega
  · dsimp only
    rw [hn]
    simpa using h3.close
  · dsimp only
    rw [hn]
    exact h4.close
  · dsimp only
    rw [hn, hsaves.1]
    exact hb
  · dsimp only
    rw [hn, hsaves.2]
    exact hs
  · rw [hn]
    rfl

/-- **One dispatch keeps the stacks in order** and moves the depth as the
piece nests. -/
theorem Stacked.dispatch {t : ScopeTracker} (h : t.Stacked) {p : Piece} {n : Nat}
    (hlevel : level Piece.nesting t.depth [p] = some n) (schema : Schema) :
    (t.dispatchToken p.text p.anchor schema).Stacked ∧
      (t.dispatchToken p.text p.anchor schema).depth = n := by
  by_cases hws : p.lexeme = .ws
  · rw [dispatchToken_ws hws]
    rw [level_flat (by rw [Piece.nesting, hws]; rfl)] at hlevel
    exact ⟨h, Option.some.inj hlevel⟩
  · rw [dispatchToken_eq rfl hws]
    have hbook : ∀ (u : ScopeTracker) (r c : Option TypeClass), u.Stacked ∧ u.depth = n →
        ({ u with lastResolved := r, cmpPending := c } : ScopeTracker).Stacked ∧
          ({ u with lastResolved := r, cmpPending := c } : ScopeTracker).depth = n :=
      fun u r c hu => ⟨hu.1.congr rfl, hu.2⟩
    refine hbook _ _ _ ?_
    change (t.dispatchLexeme p.lexeme p.anchor schema).1.Stacked ∧
      (t.dispatchLexeme p.lexeme p.anchor schema).1.depth = n
    have hflat : p.lexeme.nesting = .flat → t.depth = n := by
      intro hf
      have hk : p.nesting = .flat := hf
      rw [level_flat hk] at hlevel
      exact Option.some.inj hlevel
    have hsame : ∀ u : ScopeTracker, u.nestStacks = t.nestStacks → p.lexeme.nesting = .flat →
        u.Stacked ∧ u.depth = n := fun u hu hf =>
      ⟨h.congr hu, (congrArg Prod.fst hu).trans (hflat hf)⟩
    cases hlex : p.lexeme with
    | ident text => exact hsame _ (t.nestStacks_onIdent text p.anchor schema) (by rw [hlex]; rfl)
    | dot => exact hsame _ t.nestStacks_onDot (by rw [hlex]; rfl)
    | pipe =>
      obtain ⟨hstacked, hdepth⟩ := h.onPipe p.anchor
      exact ⟨hstacked, hdepth.trans (hflat (by rw [hlex]; rfl))⟩
    | «open» =>
      obtain ⟨hstacked, hdepth⟩ := h.onOpen p.anchor
      rw [level_opens (by rw [Piece.nesting, hlex]; rfl)] at hlevel
      exact ⟨hstacked, hdepth.trans (Option.some.inj hlevel)⟩
    | close =>
      have hcloses : p.nesting = .closes := by rw [Piece.nesting, hlex]; rfl
      cases hd : t.depth with
      | zero =>
        rw [hd, level_closes_zero hcloses] at hlevel
        cases hlevel
      | succ m =>
        rw [hd, level_closes hcloses] at hlevel
        cases hlevel
        exact h.onClose hd
    | cmp =>
      have hcmp : (t.dispatchLexeme .cmp p.anchor schema).1.nestStacks = t.nestStacks := by
        rw [dispatchLexeme]
        cases t.lastResolved <;> rfl
      exact hsame _ hcmp (by rw [hlex]; rfl)
    | _ => exact hsame _ rfl (by rw [hlex]; rfl)

/-- **So does a run of dispatches.** -/
theorem Stacked.dispatchAll {t : ScopeTracker} (h : t.Stacked) {ps : List Piece} {n : Nat}
    (hlevel : level Piece.nesting t.depth ps = some n) (schema : Schema) :
    (t.dispatchAll ps schema).Stacked ∧ (t.dispatchAll ps schema).depth = n := by
  induction ps generalizing t with
  | nil => exact ⟨h, Option.some.inj hlevel⟩
  | cons p ps ih =>
    have hsplit : p :: ps = [p] ++ ps := rfl
    rw [hsplit, level_append] at hlevel
    obtain ⟨m, hm, hrest⟩ := Option.bind_eq_some_iff.mp hlevel
    obtain ⟨hstacked, hdepth⟩ := h.dispatch hm schema
    rw [dispatchAll_cons]
    exact ih hstacked (by rw [hdepth]; exact hrest)

end ScopeTracker

end PureCard
