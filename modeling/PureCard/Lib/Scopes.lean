/-
PureCard.Lib.Scopes — lexical scopes, and the undo log that implements
them.

`Frames` is the textbook environment: a list of frames, innermost first,
each a list of bindings. Leaving a scope drops its frame. `Undo` is how a
single mutable store does the same: a binding records what it shadowed
together with the depth it was made at, and leaving a scope takes back
the recorded bindings of that depth.

`Refines` relates the two and is kept by every operation. What a program
proves on frames, for instance that the bindings of an open frame are
still there (`Frames.Within`), then holds of its store. `level` counts
the scopes a list of items opens and closes.
-/
import Mathlib.Logic.Function.Basic
import Mathlib.Data.List.TakeWhile

namespace Scopes

variable {κ ν : Type}

/-! ## Nesting -/

/-- What an item does to the nesting depth. -/
inductive Nesting where
  | opens
  | closes
  | flat
  deriving DecidableEq, Repr

section

variable {α : Type} (kind : α → Nesting)

/-- The depth after the items, from depth `n`; `none` once an item closes
a scope that was open before. -/
def level : Nat → List α → Option Nat
  | n, [] => some n
  | n, a :: rest =>
    match kind a with
    | .opens => level (n + 1) rest
    | .closes =>
      match n with
      | 0 => none
      | n + 1 => level n rest
    | .flat => level n rest

/-- Every scope opened is closed, and no other. -/
def Balanced (as : List α) : Prop := level kind 0 as = some 0

/-- No scope that was open before is closed. -/
def Inside (as : List α) : Prop := (level kind 0 as).isSome = true

instance (as : List α) : Decidable (Balanced kind as) := inferInstanceAs (Decidable (_ = _))

instance (as : List α) : Decidable (Inside kind as) := inferInstanceAs (Decidable (_ = _))

variable {kind}

theorem level_opens {a : α} (h : kind a = .opens) (n : Nat) (as : List α) :
    level kind n (a :: as) = level kind (n + 1) as := by
  rw [level.eq_def]
  simp only [h]

theorem level_flat {a : α} (h : kind a = .flat) (n : Nat) (as : List α) :
    level kind n (a :: as) = level kind n as := by
  rw [level.eq_def]
  simp only [h]

theorem level_closes {a : α} (h : kind a = .closes) (n : Nat) (as : List α) :
    level kind (n + 1) (a :: as) = level kind n as := by
  rw [level.eq_def]
  simp only [h]

theorem level_closes_zero {a : α} (h : kind a = .closes) (as : List α) :
    level kind 0 (a :: as) = none := by
  rw [level.eq_def]
  simp only [h]

theorem level_append (n : Nat) (as bs : List α) :
    level kind n (as ++ bs) = (level kind n as).bind fun m => level kind m bs := by
  induction as generalizing n with
  | nil => rfl
  | cons a as ih =>
    rw [List.cons_append]
    cases hk : kind a with
    | opens => rw [level_opens hk, level_opens hk, ih]
    | flat => rw [level_flat hk, level_flat hk, ih]
    | closes =>
      cases n with
      | zero => rw [level_closes_zero hk, level_closes_zero hk]; rfl
      | succ n => rw [level_closes hk, level_closes hk, ih]

/-- The scopes beneath do not matter. -/
theorem level_add {n m : Nat} {as : List α} (h : level kind n as = some m) (k : Nat) :
    level kind (n + k) as = some (m + k) := by
  induction as generalizing n with
  | nil =>
    cases h
    rfl
  | cons a as ih =>
    cases hk : kind a with
    | opens =>
      rw [level_opens hk] at h ⊢
      rw [Nat.add_right_comm]
      exact ih h
    | flat =>
      rw [level_flat hk] at h ⊢
      exact ih h
    | closes =>
      cases n with
      | zero =>
        rw [level_closes_zero hk] at h
        cases h
      | succ n =>
        rw [level_closes hk] at h
        rw [Nat.add_right_comm, level_closes hk]
        exact ih h

theorem level_concat (n : Nat) (as : List α) (a : α) :
    level kind n (as ++ [a]) = (level kind n as).bind fun m => level kind m [a] :=
  level_append n as [a]

/-- Before a depth was reached its scope was opened, and what was read
since is balanced. -/
theorem exists_open {as : List α} {n : Nat} (h : level kind 0 as = some (n + 1)) :
    ∃ front o body, as = front ++ o :: body ∧ level kind 0 front = some n ∧
      kind o = .opens ∧ Balanced kind body := by
  induction hlen : as.length using Nat.strong_induction_on generalizing as n with
  | _ len ih =>
    rcases List.eq_nil_or_concat as with rfl | ⟨as', a, rfl⟩
    · cases h
    · rw [List.concat_eq_append] at h hlen ⊢
      rw [List.length_append, List.length_singleton] at hlen
      rw [level_concat] at h
      obtain ⟨m, hm, ha⟩ := Option.bind_eq_some_iff.mp h
      cases hk : kind a with
      | opens =>
        rw [level_opens hk] at ha
        cases ha
        exact ⟨as', a, [], rfl, hm, hk, rfl⟩
      | flat =>
        rw [level_flat hk] at ha
        cases ha
        obtain ⟨front, o, body, rfl, hfront, ho, hbody⟩ := ih as'.length (by omega) hm rfl
        refine ⟨front, o, body ++ [a], by simp, hfront, ho, ?_⟩
        rw [Balanced, level_concat, hbody, Option.bind_some, level_flat hk]
        rfl
      | closes =>
        cases m with
        | zero =>
          rw [level_closes_zero hk] at ha
          cases ha
        | succ m =>
          rw [level_closes hk] at ha
          cases ha
          -- the scope `a` closes, and the one around it
          obtain ⟨mid, o₁, inner, rfl, hmid, ho₁, hinner⟩ := ih as'.length (by omega) hm rfl
          obtain ⟨front, o, body, rfl, hfront, ho, hbody⟩ :=
            ih mid.length (by simp at hlen; omega) hmid rfl
          refine ⟨front, o, body ++ o₁ :: inner ++ [a], by simp, hfront, ho, ?_⟩
          have hone : level kind 1 inner = some 1 := level_add hinner 1
          rw [Balanced, level_concat, level_append, hbody, Option.bind_some, level_opens ho₁, hone,
            Option.bind_some, level_closes hk]
          rfl

/-- **Balanced items are flat items and scopes.** -/
theorem Balanced.induction {motive : List α → Prop} (nil : motive [])
    (flat : ∀ as a, kind a = .flat → Balanced kind as → motive as → motive (as ++ [a]))
    (scope : ∀ as o body c, kind o = .opens → kind c = .closes → Balanced kind as →
      Balanced kind body → motive as → motive body → motive (as ++ o :: body ++ [c]))
    {as : List α} (h : Balanced kind as) : motive as := by
  induction hlen : as.length using Nat.strong_induction_on generalizing as with
  | _ len ih =>
    rcases List.eq_nil_or_concat as with rfl | ⟨as', a, rfl⟩
    · exact nil
    · rw [List.concat_eq_append] at h hlen ⊢
      rw [List.length_append, List.length_singleton] at hlen
      rw [Balanced, level_concat] at h
      obtain ⟨m, hm, ha⟩ := Option.bind_eq_some_iff.mp h
      cases hk : kind a with
      | opens =>
        rw [level_opens hk] at ha
        cases ha
      | flat =>
        rw [level_flat hk] at ha
        cases ha
        exact flat as' a hk hm (ih as'.length (by omega) hm rfl)
      | closes =>
        cases m with
        | zero =>
          rw [level_closes_zero hk] at ha
          cases ha
        | succ m =>
          rw [level_closes hk] at ha
          cases ha
          obtain ⟨front, o, body, rfl, hfront, ho, hbody⟩ := exists_open hm
          rw [List.length_append, List.length_cons] at hlen
          exact scope front o body a ho hk hfront hbody (ih front.length (by omega) hfront rfl)
            (ih body.length (by omega) hbody rfl)

/-- What comes before items that close no scope of before closes none
either. -/
theorem level_prefix {as bs : List α} {n m : Nat} (h : level kind n (as ++ bs) = some m) :
    ∃ k, level kind n as = some k ∧ level kind k bs = some m := by
  rw [level_append] at h
  exact Option.bind_eq_some_iff.mp h

/-- **The opener of a scope is unique.** -/
theorem opener_unique {front front' body body' : List α} {o o' : α} (ho : kind o = .opens)
    (ho' : kind o' = .opens) (hbody : Balanced kind body) (hbody' : Balanced kind body')
    (h : front ++ o :: body = front' ++ o' :: body') : front = front' := by
  -- a longer front would put the other opener into a balanced body
  have hlong : ∀ {f f' b b' : List α} {x x' : α}, kind x' = .opens → Balanced kind b →
      Balanced kind b' → f ++ x :: b = f' ++ x' :: b' → ∀ e mid, f' = f ++ e :: mid → False := by
    intro f f' b b' x x' hx' hb hb' heq e mid hf'
    rw [hf', List.append_assoc, List.cons_append, List.append_cancel_left_eq] at heq
    obtain ⟨_, rfl⟩ := List.cons.inj heq
    obtain ⟨k, _, hk⟩ := level_prefix hb
    have hin := level_add hb' (k + 1)
    rw [level_opens hx'] at hk
    rw [Nat.zero_add, hk] at hin
    cases hin
  rcases List.append_eq_append_iff.mp h with ⟨mid, hmid, _⟩ | ⟨mid, hmid, _⟩
  · cases mid with
    | nil => rw [hmid, List.append_nil]
    | cons e mid => exact (hlong ho' hbody hbody' h e mid hmid).elim
  · cases mid with
    | nil => rw [hmid, List.append_nil]
    | cons e mid => exact (hlong ho hbody' hbody h.symm e mid hmid).elim

end

/-! ## Frames -/

/-- Scopes, innermost first; in a scope the latest binding comes first. -/
abbrev Frames (κ ν : Type) := List (List (κ × ν))

namespace Frames

def enter (fr : Frames κ ν) : Frames κ ν := [] :: fr

/-- Leave the innermost scope. The outermost one is never left, only
emptied. -/
def leave : Frames κ ν → Frames κ ν
  | [] => []
  | [_] => [[]]
  | _ :: f :: rest => f :: rest

def bind (k : κ) (v : ν) : Frames κ ν → Frames κ ν
  | [] => [[(k, v)]]
  | f :: rest => ((k, v) :: f) :: rest

/-! ### A scope and what is inside it -/

/-- `fr` is reached from `outer` without leaving `outer`'s innermost
scope: `fr` has `up` above it and `more` added to it. -/
def Within (outer : Frames κ ν) (up : Frames κ ν) (more : List (κ × ν)) (fr : Frames κ ν) : Prop :=
  ∃ f rest, outer = f :: rest ∧ fr = up ++ (more ++ f) :: rest

theorem Within.start {outer : Frames κ ν} (h : outer ≠ []) : Within outer [] [] outer := by
  cases outer with
  | nil => exact absurd rfl h
  | cons f rest => exact ⟨f, rest, rfl, rfl⟩

/-- Nothing bound and nothing opened: nothing was added. -/
theorem Within.eq_nil {fr up : Frames κ ν} {more : List (κ × ν)} (h : Within fr up more fr) :
    up = [] ∧ more = [] := by
  obtain ⟨f, rest, rfl, heq⟩ := h
  have hup : up = [] := by
    have hlen := congrArg List.length heq
    simp only [List.length_cons, List.length_append] at hlen
    exact List.length_eq_zero_iff.mp (by omega)
  subst hup
  have hf := (List.cons.inj heq).1
  exact ⟨rfl, List.self_eq_append_left.mp hf⟩

/-- What was opened and bound is determined by the two environments. -/
theorem Within.unique {outer fr up up' : Frames κ ν} {more more' : List (κ × ν)}
    (h : Within outer up more fr) (h' : Within outer up' more' fr) : up = up' ∧ more = more' := by
  obtain ⟨f, rest, rfl, rfl⟩ := h
  obtain ⟨g, rest', houter, hfr⟩ := h'
  obtain ⟨rfl, rfl⟩ := List.cons.inj houter
  obtain ⟨hup, htail⟩ := List.append_inj' hfr rfl
  exact ⟨hup, List.append_cancel_right (List.cons.inj htail).1⟩

theorem Within.enter {outer up fr : Frames κ ν} {more : List (κ × ν)}
    (h : Within outer up more fr) : Within outer ([] :: up) more fr.enter := by
  obtain ⟨f, rest, rfl, rfl⟩ := h
  exact ⟨f, rest, rfl, rfl⟩

theorem Within.leave {outer fr : Frames κ ν} {f : List (κ × ν)} {up : Frames κ ν}
    {more : List (κ × ν)} (h : Within outer (f :: up) more fr) : Within outer up more fr.leave := by
  obtain ⟨g, rest, rfl, rfl⟩ := h
  refine ⟨g, rest, rfl, ?_⟩
  cases up <;> rfl

theorem Within.bind_top {outer fr : Frames κ ν} {more : List (κ × ν)}
    (h : Within outer [] more fr) (k : κ) (v : ν) :
    Within outer [] ((k, v) :: more) (fr.bind k v) := by
  obtain ⟨f, rest, rfl, rfl⟩ := h
  exact ⟨f, rest, rfl, rfl⟩

theorem Within.bind_up {outer fr : Frames κ ν} {f : List (κ × ν)} {up : Frames κ ν}
    {more : List (κ × ν)} (h : Within outer (f :: up) more fr) (k : κ) (v : ν) :
    Within outer (((k, v) :: f) :: up) more (fr.bind k v) := by
  obtain ⟨g, rest, rfl, rfl⟩ := h
  exact ⟨g, rest, rfl, rfl⟩

/-! ### Looking a name up -/

variable [DecidableEq κ]

/-- The innermost binding of `k`. -/
def find (fr : Frames κ ν) (k : κ) : Option ν := fr.flatten.lookup k

/-- What `k` stands for, `base k` where no scope binds it. -/
def lookup (base : κ → ν) (fr : Frames κ ν) (k : κ) : ν := (fr.find k).getD (base k)

theorem find_append (up fr : Frames κ ν) (k : κ) :
    find (up ++ fr) k = (up.find k).or (fr.find k) := by
  rw [find, List.flatten_append, List.lookup_append]
  rfl

theorem find_cons (f : List (κ × ν)) (rest : Frames κ ν) (k : κ) :
    find (f :: rest) k = (f.lookup k).or (rest.find k) := by
  rw [find, List.flatten_cons, List.lookup_append]
  rfl

theorem find_ne_none_of_mem {fr : Frames κ ν} {k : κ} {v : ν} (h : (k, v) ∈ fr.flatten) :
    fr.find k ≠ none := by
  intro hnone
  have hne := List.lookup_eq_none_iff.mp hnone (k, v) h
  simp at hne

@[simp] theorem find_enter (fr : Frames κ ν) : fr.enter.find = fr.find := rfl

@[simp] theorem lookup_enter (base : κ → ν) (fr : Frames κ ν) :
    fr.enter.lookup base = fr.lookup base := rfl

theorem lookup_bind (base : κ → ν) (f : List (κ × ν)) (rest : Frames κ ν) (k : κ) (v : ν) :
    lookup base (((k, v) :: f) :: rest) = Function.update (lookup base (f :: rest)) k v := by
  funext x
  by_cases hx : x = k
  · subst hx
    rw [Function.update_self, lookup, find, List.flatten_cons, List.cons_append,
      List.lookup_cons_self]
    rfl
  · have hne : (x == k) = false := beq_eq_false_iff_ne.mpr hx
    rw [Function.update_of_ne hx, lookup, lookup, find, find, List.flatten_cons, List.flatten_cons,
      List.cons_append, List.lookup_cons, hne]

/-- **The inner scope wins.** What was bound since `outer` hides `outer`. -/
theorem Within.lookup_eq {outer fr up : Frames κ ν} {more : List (κ × ν)}
    (h : Within outer up more fr) (base : κ → ν) (k : κ) :
    fr.lookup base k = ((up ++ [more]).find k).getD (outer.lookup base k) := by
  obtain ⟨f, rest, rfl, rfl⟩ := h
  rw [Frames.lookup, Frames.lookup, find_append, find_cons, List.lookup_append, find_append,
    find_cons, find_cons, Option.getD_or, Option.getD_or]
  cases up.find k with
  | some v => rfl
  | none =>
    simp only [Option.none_or]
    cases more.lookup k with
    | some v => rfl
    | none => simp [find]

end Frames

/-! ## The undo log -/

variable [DecidableEq κ]

/-- A store with the bindings it has shadowed, the latest first. -/
structure Undo (κ ν : Type) where
  store : κ → ν
  depth : Nat
  log : List (Nat × κ × ν)

namespace Undo

/-- Put back one recorded binding. -/
def putBack (store : κ → ν) (entry : Nat × κ × ν) : κ → ν :=
  Function.update store entry.2.1 entry.2.2

def bind (u : Undo κ ν) (k : κ) (v : ν) : Undo κ ν :=
  { u with store := Function.update u.store k v, log := (u.depth, k, u.store k) :: u.log }

def enter (u : Undo κ ν) : Undo κ ν := { u with depth := u.depth + 1 }

/-- Take back the bindings recorded at the current depth, then leave it. -/
def leave (u : Undo κ ν) : Undo κ ν where
  store := (u.log.takeWhile fun e => e.1 == u.depth).foldl putBack u.store
  depth := u.depth - 1
  log := u.log.dropWhile fun e => e.1 == u.depth

end Undo

/-! ## The log refines the frames -/

/-- The log of one frame over the frames beneath it. -/
def frameLog (base : κ → ν) (rest : Frames κ ν) : List (κ × ν) → List (Nat × κ × ν)
  | [] => []
  | (k, _) :: f => (rest.length, k, Frames.lookup base (f :: rest) k) :: frameLog base rest f

/-- The log a whole environment leaves. -/
def logOf (base : κ → ν) : Frames κ ν → List (Nat × κ × ν)
  | [] => []
  | f :: rest => frameLog base rest f ++ logOf base rest

theorem depth_of_mem_frameLog {base : κ → ν} {rest : Frames κ ν} {f : List (κ × ν)}
    {e : Nat × κ × ν} (h : e ∈ frameLog base rest f) : e.1 = rest.length := by
  induction f with
  | nil => cases h
  | cons b f ih =>
    rcases List.mem_cons.mp h with rfl | h
    · rfl
    · exact ih h

theorem depth_of_mem_logOf {base : κ → ν} {fr : Frames κ ν} {e : Nat × κ × ν}
    (h : e ∈ logOf base fr) : e.1 < fr.length := by
  induction fr with
  | nil => cases h
  | cons f rest ih =>
    rcases List.mem_append.mp h with h | h
    · rw [depth_of_mem_frameLog h, List.length_cons]
      omega
    · have := ih h
      rw [List.length_cons]
      omega

/-- Rolling a frame back leaves what is beneath it. -/
theorem foldl_putBack_frameLog (base : κ → ν) (rest : Frames κ ν) (f : List (κ × ν)) :
    (frameLog base rest f).foldl Undo.putBack (Frames.lookup base (f :: rest)) =
      Frames.lookup base rest := by
  induction f with
  | nil => rfl
  | cons b f ih =>
    obtain ⟨k, v⟩ := b
    rw [frameLog, List.foldl_cons, Frames.lookup_bind]
    have hback : Undo.putBack (Function.update (Frames.lookup base (f :: rest)) k v)
        (rest.length, k, Frames.lookup base (f :: rest) k) = Frames.lookup base (f :: rest) := by
      rw [Undo.putBack, Function.update_idem, Function.update_eq_self]
    rw [hback, ih]

theorem takeWhile_frameLog (base : κ → ν) (rest : Frames κ ν) (f : List (κ × ν)) :
    (logOf base (f :: rest)).takeWhile (fun e => e.1 == rest.length) = frameLog base rest f ∧
      (logOf base (f :: rest)).dropWhile (fun e => e.1 == rest.length) = logOf base rest := by
  have hin : ∀ e ∈ frameLog base rest f, (e.1 == rest.length) = true := fun e he =>
    beq_iff_eq.mpr (depth_of_mem_frameLog he)
  have hout : ∀ e ∈ logOf base rest, (e.1 == rest.length) = false := fun e he =>
    beq_eq_false_iff_ne.mpr (depth_of_mem_logOf he).ne
  rw [logOf, List.takeWhile_append_of_pos hin, List.dropWhile_append_of_pos hin]
  cases hlog : logOf base rest with
  | nil => exact ⟨List.append_nil _, rfl⟩
  | cons e es =>
    have hno := hout e (hlog ▸ List.mem_cons_self)
    simp [hno]

/-- The store answers what the frames answer, at their depth, and the log
is theirs. -/
structure Refines (base : κ → ν) (fr : Frames κ ν) (u : Undo κ ν) : Prop where
  store : u.store = fr.lookup base
  depth : u.depth + 1 = fr.length
  log : u.log = logOf base fr

theorem Refines.start (base : κ → ν) : Refines base [[]] ⟨base, 0, []⟩ := ⟨rfl, rfl, rfl⟩

theorem Refines.ne_nil {base : κ → ν} {fr : Frames κ ν} {u : Undo κ ν}
    (h : Refines base fr u) : fr ≠ [] := by
  rintro rfl
  cases h.depth

theorem Refines.enter {base : κ → ν} {fr : Frames κ ν} {u : Undo κ ν}
    (h : Refines base fr u) : Refines base fr.enter u.enter where
  store := h.store
  depth := congrArg (· + 1) h.depth
  log := h.log

theorem Refines.bind {base : κ → ν} {fr : Frames κ ν} {u : Undo κ ν}
    (h : Refines base fr u) (k : κ) (v : ν) : Refines base (fr.bind k v) (u.bind k v) := by
  cases fr with
  | nil => exact absurd rfl h.ne_nil
  | cons f rest =>
    have hdepth : u.depth = rest.length := by simpa using h.depth
    exact
      { store := by rw [Undo.bind, h.store, Frames.bind, Frames.lookup_bind]
        depth := h.depth
        log := by rw [Undo.bind, h.log, h.store, hdepth]; rfl }

theorem Refines.leave {base : κ → ν} {fr : Frames κ ν} {u : Undo κ ν}
    (h : Refines base fr u) : Refines base fr.leave u.leave := by
  cases fr with
  | nil => exact absurd rfl h.ne_nil
  | cons f rest =>
    have hdepth : u.depth = rest.length := by simpa using h.depth
    have hstore : u.leave.store = Frames.lookup base rest := by
      rw [Undo.leave, h.log, hdepth, (takeWhile_frameLog base rest f).1, h.store,
        foldl_putBack_frameLog]
    have hlog : u.leave.log = logOf base rest := by
      rw [Undo.leave, h.log, hdepth, (takeWhile_frameLog base rest f).2]
    cases rest with
    | nil => exact ⟨hstore, by simp [Undo.leave, hdepth, Frames.leave], hlog⟩
    | cons g rest => exact ⟨hstore, by simp [Undo.leave, hdepth, Frames.leave], hlog⟩

/-- Frames say everything about the store they refine. -/
theorem Refines.unique {base : κ → ν} {fr : Frames κ ν} {u u' : Undo κ ν}
    (h : Refines base fr u) (h' : Refines base fr u') : u' = u := by
  obtain ⟨store, depth, log⟩ := u
  obtain ⟨store', depth', log'⟩ := u'
  obtain ⟨h1, h2, h3⟩ := h
  obtain ⟨h1', h2', h3'⟩ := h'
  dsimp only at h1 h2 h3 h1' h2' h3'
  subst h1 h3 h1' h3'
  rw [← h2] at h2'
  rw [Nat.succ.inj h2']

/-- Bind names one after another. -/
def Undo.binds (u : Undo κ ν) (bs : List (κ × ν)) : Undo κ ν :=
  bs.foldl (fun u b => u.bind b.1 b.2) u

theorem Undo.binds_append (u : Undo κ ν) (bs cs : List (κ × ν)) :
    u.binds (bs ++ cs) = (u.binds bs).binds cs := List.foldl_append

theorem Undo.depth_binds (u : Undo κ ν) (bs : List (κ × ν)) : (u.binds bs).depth = u.depth := by
  induction bs generalizing u with
  | nil => rfl
  | cons b bs ih => exact ih (u.bind b.1 b.2)

/-- Names bound one after another stand in the innermost frame. -/
theorem Refines.binds {base : κ → ν} {f : List (κ × ν)} {rest : Frames κ ν} {u : Undo κ ν}
    (h : Refines base (f :: rest) u) (bs : List (κ × ν)) :
    ∃ g, Refines base (g :: rest) (u.binds bs) := by
  induction bs generalizing f u with
  | nil => exact ⟨f, h⟩
  | cons b bs ih => exact ih (h.bind b.1 b.2)

/-- **A scope leaves nothing behind**, whatever was bound in it. -/
theorem Refines.leave_binds {base : κ → ν} {fr : Frames κ ν} {u : Undo κ ν} (h : Refines base fr u)
    (bs : List (κ × ν)) : (u.enter.binds bs).leave = u := by
  obtain ⟨f, rest, rfl⟩ := List.exists_cons_of_ne_nil h.ne_nil
  obtain ⟨g, hg⟩ := h.enter.binds bs
  exact h.unique hg.leave

end Scopes
