/-
PureCard.SchemaMask — the mask of a session, token by token.

`allowed_mask` is put together from a per-state cache shared with other
sessions, two mask buffers with their old contents still in them, a memo
of masks and two intersections. `allows_iff` is what comes out: a token is
allowed when the automaton admits it and the rule at the position and the
rule of a fused navigation dot keep it (`legal`), and EOS when the query
is complete. Nothing else of the session is in it.

It needs the memo to be right (`MemoValid`). A fresh session's is, and no
call on a session makes it wrong.
-/
import PureCard.Schema.Columns
import PureCard.Schema.Memo
import PureCard.SyntacticMask

namespace PureCard

open ScopeTracker

namespace Session

/-- Whether the schema, if any, keeps a token. -/
def legal (s : Session) (bytes : Bytes) : Bool :=
  match s.schema with
  | none => true
  | some schema =>
    legalAt schema (s.tracker.position s.pda.state) s.tracker.narrowPrefix
        s.tracker.emittedColumns bytes &&
      match s.tracker.fusedNavPosition schema with
      | some fused => legalFused schema fused s.tracker.emittedColumns bytes
      | none => true

/-- The memo is right for the columns the tracker has recorded. -/
def MemoValid (s : Session) : Prop :=
  ∀ schema, s.schema = some schema →
    s.narrowCache.Valid schema s.tracker.emittedColumns s.grammar.vocab

/-! ## One intersection -/

/-- A pass that keeps what `keep` keeps removes the other tokens' bits and
leaves the EOS bit. -/
theorem Overlay.test_apply {o : Overlay} {n : Narrowed} {schema : Schema} {columns : List Bytes}
    {vocab : Vocab} {keep : Bytes → Bool} (hlen : o.mask.len = vocab.maskLen)
    (h : n.Meets schema columns vocab keep) (id : Nat) :
    (o.apply n).mask.test id =
      (o.mask.test id && (decide (id = vocab.eosBit) || keep (vocab.bytesOrEmpty id))) := by
  unfold Overlay.apply
  cases happ : n.applied with
  | false => simp [h.passed happ]
  | true =>
    have hholds := h.applied happ
    rw [if_pos rfl, BitMask.test_intersect (by rw [hholds.len, hlen]), hholds.test]
    by_cases hid : id < vocab.maskLen
    · have hsplit : id = vocab.eosBit ∨ id < vocab.eosBit := by
        unfold Vocab.maskLen at hid
        omega
      rcases hsplit with rfl | hlt
      · simp
      · simp [hlt]
    · rw [BitMask.test_of_len_le (by omega)]
      rfl

/-- What both passes leave behind. -/
theorem overlay_meets (s : Session) (schema : Schema) {o : Overlay}
    (hmask : o.mask.len = s.grammar.vocab.maskLen)
    (hbuf : o.narrowBuf.len = s.grammar.vocab.maskLen)
    (hvalid : o.cache.Valid schema s.tracker.emittedColumns s.grammar.vocab) :
    (s.overlay schema o).cache.Valid schema s.tracker.emittedColumns s.grammar.vocab ∧
    ∀ id, (s.overlay schema o).mask.test id = (o.mask.test id &&
      (decide (id = s.grammar.vocab.eosBit) ||
        (legalAt schema (s.tracker.position s.pda.state) s.tracker.narrowPrefix
            s.tracker.emittedColumns (s.grammar.vocab.bytesOrEmpty id) &&
          match s.tracker.fusedNavPosition schema with
          | some fused => legalFused schema fused s.tracker.emittedColumns
              (s.grammar.vocab.bytesOrEmpty id)
          | none => true))) := by
  have hfirst := narrowInto_meets hbuf hvalid (s.tracker.position s.pda.state)
    s.tracker.narrowPrefix
  have hbuf₁ : (o.apply _).narrowBuf.len = s.grammar.vocab.maskLen := hfirst.len
  have hvalid₁ : (o.apply _).cache.Valid schema s.tracker.emittedColumns s.grammar.vocab :=
    hfirst.valid
  have hmask₁ := (o.len_apply (narrowInto o.narrowBuf o.cache schema
    (s.tracker.position s.pda.state) s.tracker.narrowPrefix s.tracker.emittedColumns
    s.grammar.vocab)).trans hmask
  have htest₁ := Overlay.test_apply hmask hfirst
  unfold overlay
  dsimp only
  generalize o.apply (narrowInto o.narrowBuf o.cache schema (s.tracker.position s.pda.state)
    s.tracker.narrowPrefix s.tracker.emittedColumns s.grammar.vocab) = o₁ at *
  cases s.tracker.fusedNavPosition schema with
  | none =>
    refine ⟨hvalid₁, fun id => ?_⟩
    simp only [htest₁, Bool.and_true]
  | some fused =>
    have hsecond := narrowFusedInto_meets hbuf₁ hvalid₁ fused
    refine ⟨hsecond.valid, fun id => ?_⟩
    simp only [Overlay.test_apply hmask₁ hsecond, htest₁]
    cases o.mask.test id <;> cases decide (id = s.grammar.vocab.eosBit) <;> simp

/-! ## The mask -/

/-- **A session's mask, token by token.** -/
theorem allows_iff {s : Session} (h : s.MemoValid) (id : Nat) :
    s.allows id = true ↔
      (id < s.grammar.eosBit ∧ s.pda.admits (s.grammar.vocab.bytesOrEmpty id) = true ∧
        s.legal (s.grammar.vocab.bytesOrEmpty id) = true) ∨
      (id = s.grammar.eosBit ∧ s.pda.isAccepting = true) := by
  have hsyn := s.test_syntacticMask id
  cases hschema : s.schema with
  | none =>
    have hmask : s.allows id = s.syntacticMask.test id := by
      simp only [allows, allowedMask, refill, hschema]
    have hlegal : s.legal (s.grammar.vocab.bytesOrEmpty id) = true := by
      simp only [legal, hschema]
    rw [hmask, hsyn, hlegal]
    simp
  | some schema =>
    have hover := (s.overlay_meets schema (o := ⟨s.syntacticMask, s.narrowBuf, s.narrowCache⟩)
      s.len_syntacticMask s.narrowBuf_len (h schema hschema)).2 id
    have hmask : s.allows id = (s.overlay schema
        ⟨s.syntacticMask, s.narrowBuf, s.narrowCache⟩).mask.test id := by
      simp only [allows, allowedMask, refill, hschema]
    have hlegal : s.legal (s.grammar.vocab.bytesOrEmpty id) =
        (legalAt schema (s.tracker.position s.pda.state) s.tracker.narrowPrefix
            s.tracker.emittedColumns (s.grammar.vocab.bytesOrEmpty id) &&
          match s.tracker.fusedNavPosition schema with
          | some fused => legalFused schema fused s.tracker.emittedColumns
              (s.grammar.vocab.bytesOrEmpty id)
          | none => true) := by
      simp only [legal, hschema]
    have heos : s.grammar.eosBit = s.grammar.vocab.eosBit := rfl
    rw [hmask, hover, hlegal, Bool.and_eq_true, Bool.or_eq_true, decide_eq_true_eq, hsyn, heos]
    by_cases hid : id = s.grammar.vocab.eosBit
    · simp [hid]
    · simp [hid, and_assoc]

/-! ## The memo stays right -/

theorem memoValid_build (grammar : CompiledGrammar) (schema : Option Schema) :
    (build grammar schema).MemoValid := fun _ _ => .empty ..

theorem memoValid_of_none {s : Session} (h : s.schema = none) : s.MemoValid := by
  intro schema hschema
  rw [h] at hschema
  cases hschema

theorem MemoValid.sharedFill {s : Session} (h : s.MemoValid) (state : State) :
    (s.sharedFill state).MemoValid := h

theorem MemoValid.reset {s : Session} (_ : s.MemoValid) : s.reset.MemoValid := fun _ _ => .empty ..

theorem MemoValid.allowedMask {s : Session} (h : s.MemoValid) : s.allowedMask.MemoValid := by
  intro schema hschema
  have hover := (s.overlay_meets schema (o := ⟨s.syntacticMask, s.narrowBuf, s.narrowCache⟩)
    s.len_syntacticMask s.narrowBuf_len (h schema hschema)).1
  have hschema' : s.schema = some schema := hschema
  have hcache : s.allowedMask.narrowCache =
      (s.overlay schema ⟨s.syntacticMask, s.narrowBuf, s.narrowCache⟩).cache := by
    simp only [Session.allowedMask, refill, hschema']
  have hvocab : s.allowedMask.grammar.vocab = s.grammar.vocab := CompiledGrammar.vocab_cached ..
  rw [hcache, hvocab]
  exact hover

theorem MemoValid.commit {s : Session} (h : s.MemoValid) (bytes : Bytes) (pda : Pda) :
    (s.commit bytes pda).MemoValid := by
  intro schema hschema
  have hschema' : s.schema = some schema := hschema
  have htracker : (s.commit bytes pda).tracker = s.tracker.observe bytes s.pda schema := by
    simp only [Session.commit, hschema']
  rw [emittedColumns, htracker]
  exact (h schema hschema').extend (s.tracker.emitted_prefix_observe bytes s.pda schema)

theorem MemoValid.acceptToken {s s' : Session} (h : s.MemoValid) {id : Nat}
    (hs : s.acceptToken id = .ok s') : s'.MemoValid := by
  unfold Session.acceptToken at hs
  split at hs
  · split at hs
    · cases hs
      exact h
    · cases hs
  · split at hs
    · cases hs
    · split at hs
      · cases hs
        exact h.commit _ _
      · cases hs

end Session

end PureCard
