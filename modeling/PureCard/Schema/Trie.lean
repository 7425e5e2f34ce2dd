/-
PureCard.Schema.Trie — the byte trie of legal completions and the walk
over it (`src/schema/trie.rs`).

The node vector is a list and a node id its position; an edge is looked
up, and its place found, by `PureCard.Lib.BinarySearch`. A `Trie` is a
node vector with a labelling: the edges of every node ascend by byte, as
the search needs them, and every node is reached by exactly one byte path,
its label. Insertion keeps both (`Labelled.insertFrom`), so the search
finds the edges that are there (`Trie.child_eq_lookup`). The theorems read
the trie as the set of names it was built from: `follow_fromNames` says
which paths exist, `isTerminal_fromNames` which of them end a name, and
`walk_eq_verdict` that walking a token is `PureCard.Lib.Completion`'s
verdict. Node numbers do not come up again after that.
-/
import PureCard.Grammar.Pda
import PureCard.Lib.BinarySearch
import PureCard.Lib.Completion
import Mathlib.Data.List.Basic

namespace PureCard

/-! ## The node vector -/

/-- One trie node: its outgoing edges and whether a name ends here. -/
structure TrieNode where
  next : List (UInt8 × Nat)
  terminal : Bool
  deriving DecidableEq, Repr

def TrieNode.default : TrieNode := ⟨[], false⟩

abbrev TrieNodes := List TrieNode

/-- The edges ascend by byte. -/
def EdgesSorted (next : List (UInt8 × Nat)) : Prop := BinarySearch.SortedBy Prod.fst next

namespace TrieNodes

/-- The edges out of `node`. -/
def edges (nodes : TrieNodes) (node : Nat) : List (UInt8 × Nat) :=
  (nodes[node]?.getD .default).next

/-- `binary_search_by_key` on the bytes of the edges, `.ok()`, then the
node of the edge at that place. -/
def child (nodes : TrieNodes) (node : Nat) (byte : UInt8) : Option Nat :=
  (BinarySearch.found Prod.fst byte (nodes.edges node)).map Prod.snd

def isTerminal (nodes : TrieNodes) (node : Nat) : Bool :=
  (nodes[node]?.getD .default).terminal

/-- Push a fresh node and insert its edge under `node`, at the place the
search for its byte comes to (`unwrap_or_else(|at| at)`). -/
def grow (nodes : TrieNodes) (node : Nat) (byte : UInt8) : TrieNodes :=
  (nodes ++ [TrieNode.default]).modify node fun n =>
    { n with next := BinarySearch.insertAt Prod.fst (byte, nodes.length) n.next }

def mark (nodes : TrieNodes) (node : Nat) : TrieNodes :=
  nodes.modify node fun n => { n with terminal := true }

/-- The loop of `insert`: descend along `bytes`, growing the trie where an
edge is missing, and mark the last node. -/
def insertFrom (nodes : TrieNodes) (node : Nat) : Bytes → TrieNodes
  | [] => nodes.mark node
  | byte :: rest =>
    match nodes.child node byte with
    | some child => nodes.insertFrom child rest
    | none => (nodes.grow node byte).insertFrom nodes.length rest

/-- The node reached from `node` along a byte path. -/
def follow (nodes : TrieNodes) (node : Nat) : Bytes → Option Nat
  | [] => some node
  | b :: w => (nodes.child node b).bind fun c => nodes.follow c w

theorem follow_append (nodes : TrieNodes) (node : Nat) (u v : Bytes) :
    nodes.follow node (u ++ v) = (nodes.follow node u).bind fun c => nodes.follow c v := by
  induction u generalizing node with
  | nil => rfl
  | cons b u ih =>
    rw [List.cons_append, follow, follow]
    cases nodes.child node b with
    | none => rfl
    | some c => exact ih c

theorem follow_concat (nodes : TrieNodes) (node : Nat) (w : Bytes) (b : UInt8) :
    nodes.follow node (w ++ [b]) = (nodes.follow node w).bind fun c => nodes.child c b := by
  rw [follow_append]
  congr 1
  funext c
  rw [follow]
  cases nodes.child c b <;> rfl

/-! ## Labels -/

/-- Edges are sorted, and every node is reached from the root along its
label and along nothing else. -/
structure Labelled (nodes : TrieNodes) (label : Nat → Bytes) : Prop where
  sorted : ∀ i, EdgesSorted (nodes.edges i)
  root_lt : 0 < nodes.length
  root : label 0 = []
  child_lt : ∀ {i b c}, nodes.child i b = some c → c < nodes.length
  child_label : ∀ {i b c}, nodes.child i b = some c → label c = label i ++ [b]
  reached : ∀ {i}, i < nodes.length → nodes.follow 0 (label i) = some i

theorem Labelled.follow_label {nodes : TrieNodes} {label : Nat → Bytes}
    (h : nodes.Labelled label) {w : Bytes} {i : Nat} (hw : nodes.follow 0 w = some i) :
    i < nodes.length ∧ label i = w := by
  induction w using List.reverseRecOn generalizing i with
  | nil =>
    simp only [follow, Option.some.injEq] at hw
    subst hw
    exact ⟨h.root_lt, h.root⟩
  | append_singleton w b ih =>
    rw [follow_concat] at hw
    obtain ⟨j, hj, hc⟩ := Option.bind_eq_some_iff.mp hw
    exact ⟨h.child_lt hc, by rw [h.child_label hc, (ih hj).2]⟩

/-- Two paths to one node are the same path. -/
theorem Labelled.follow_eq_iff {nodes : TrieNodes} {label : Nat → Bytes}
    (h : nodes.Labelled label) {w : Bytes} {i : Nat} (hi : i < nodes.length) :
    nodes.follow 0 w = some i ↔ w = label i :=
  ⟨fun hw => (h.follow_label hw).2.symm, fun hw => hw ▸ h.reached hi⟩

/-- The search finds the edges that are there. -/
theorem child_eq_some_iff {nodes : TrieNodes} {i : Nat} (hs : EdgesSorted (nodes.edges i))
    {b : UInt8} {c : Nat} : nodes.child i b = some c ↔ (b, c) ∈ nodes.edges i := by
  rw [child, Option.map_eq_some_iff]
  constructor
  · rintro ⟨⟨b', c'⟩, hfound, rfl⟩
    obtain ⟨hmem, rfl⟩ := hs.found_eq_some_iff.mp hfound
    exact hmem
  · intro hmem
    exact ⟨(b, c), hs.found_eq_some_iff.mpr ⟨hmem, rfl⟩, rfl⟩

theorem child_eq_lookup {nodes : TrieNodes} {i : Nat} (hs : EdgesSorted (nodes.edges i))
    (b : UInt8) : nodes.child i b = (nodes.edges i).lookup b := by
  cases hlookup : (nodes.edges i).lookup b with
  | some c =>
    obtain ⟨before, after, hedges, -⟩ := List.lookup_eq_some_iff.mp hlookup
    rw [child_eq_some_iff hs, hedges]
    simp
  | none =>
    rw [Option.eq_none_iff_forall_ne_some]
    intro c hchild
    have hne := List.lookup_eq_none_iff.mp hlookup _ ((child_eq_some_iff hs).mp hchild)
    simp at hne

@[simp] theorem edges_new (i : Nat) : edges [TrieNode.default] i = [] := by
  cases i <;> rfl

@[simp] theorem child_new (i : Nat) (b : UInt8) : child [TrieNode.default] i b = none := by
  rw [child, edges_new]
  rfl

theorem labelled_new : Labelled [TrieNode.default] fun _ => [] where
  sorted i := by
    rw [edges_new]
    exact .nil
  root_lt := by simp
  root := rfl
  child_lt {i b c} h := by simp at h
  child_label {i b c} h := by simp at h
  reached {i} h := by
    have : i = 0 := by simpa using h
    subst this
    rfl

/-! ### Growing and marking -/

@[simp] theorem length_grow (nodes : TrieNodes) (node : Nat) (byte : UInt8) :
    (nodes.grow node byte).length = nodes.length + 1 := by
  simp [grow]

@[simp] theorem length_mark (nodes : TrieNodes) (node : Nat) :
    (nodes.mark node).length = nodes.length := by
  simp [mark]

theorem getElem?_append_default (nodes : TrieNodes) (i : Nat) :
    ((nodes ++ [TrieNode.default])[i]?).getD .default = nodes[i]?.getD .default := by
  rw [List.getElem?_append]
  by_cases hi : i < nodes.length
  · rw [if_pos hi]
  · have hnone : nodes[i]? = none := List.getElem?_eq_none (Nat.le_of_not_lt hi)
    rw [if_neg hi, hnone]
    cases i - nodes.length <;> simp

theorem edges_grow {nodes : TrieNodes} {node : Nat} {byte : UInt8} (hnode : node < nodes.length)
    (i : Nat) : (nodes.grow node byte).edges i =
      if i = node then BinarySearch.insertAt Prod.fst (byte, nodes.length) (nodes.edges node)
      else nodes.edges i := by
  unfold edges grow
  rw [List.getElem?_modify]
  by_cases hi : node = i
  · subst hi
    rw [List.getElem?_append_left hnode, List.getElem?_eq_getElem hnode]
    simp
  · rw [if_neg (Ne.symm hi)]
    simp only [hi, if_false, id_map']
    rw [getElem?_append_default]

theorem child_eq_none {nodes : TrieNodes} {i : Nat} {b : UInt8} :
    nodes.child i b = none ↔ BinarySearch.found Prod.fst b (nodes.edges i) = none :=
  Option.map_eq_none_iff

/-- An edge inserted where the search points leaves the edges sorted. -/
theorem sorted_grow {nodes : TrieNodes} {node : Nat} {byte : UInt8}
    (hs : ∀ i, EdgesSorted (nodes.edges i)) (hnode : node < nodes.length)
    (habsent : nodes.child node byte = none) (i : Nat) :
    EdgesSorted ((nodes.grow node byte).edges i) := by
  rw [edges_grow hnode]
  split
  · exact (hs node).insertAt (child_eq_none.mp habsent)
  · exact hs i

theorem child_grow {nodes : TrieNodes} {node : Nat} {byte : UInt8}
    (hs : ∀ i, EdgesSorted (nodes.edges i)) (hnode : node < nodes.length)
    (habsent : nodes.child node byte = none) (i : Nat) (b : UInt8) :
    (nodes.grow node byte).child i b =
      if i = node ∧ b = byte then some nodes.length else nodes.child i b := by
  rw [child, edges_grow hnode]
  by_cases hi : i = node
  · subst hi
    rw [if_pos rfl, (hs i).found_insertAt (child_eq_none.mp habsent)]
    by_cases hb : b = byte
    · simp [hb]
    · simp [hb, child]
  · simp [hi, child]

theorem isTerminal_grow {nodes : TrieNodes} {node : Nat} {byte : UInt8} (i : Nat) :
    (nodes.grow node byte).isTerminal i = nodes.isTerminal i := by
  unfold isTerminal grow
  rw [List.getElem?_modify, ← getElem?_append_default nodes i]
  cases (nodes ++ [TrieNode.default])[i]? with
  | none => rfl
  | some n => by_cases hi : node = i <;> simp [hi]

@[simp] theorem edges_mark (nodes : TrieNodes) (node i : Nat) :
    (nodes.mark node).edges i = nodes.edges i := by
  unfold edges mark
  rw [List.getElem?_modify]
  cases nodes[i]? with
  | none => rfl
  | some n => by_cases hi : node = i <;> simp [hi]

theorem child_mark (nodes : TrieNodes) (node i : Nat) (b : UInt8) :
    (nodes.mark node).child i b = nodes.child i b := by
  rw [child, edges_mark, child]

theorem isTerminal_mark {nodes : TrieNodes} {node : Nat} (hnode : node < nodes.length) (i : Nat) :
    (nodes.mark node).isTerminal i = (decide (i = node) || nodes.isTerminal i) := by
  unfold isTerminal mark
  rw [List.getElem?_modify]
  by_cases hi : node = i
  · subst hi
    simp [List.getElem?_eq_getElem hnode]
  · have hne : i ≠ node := fun h => hi h.symm
    cases nodes[i]? <;> simp [hi, hne]

theorem follow_mark (nodes : TrieNodes) (node i : Nat) (w : Bytes) :
    (nodes.mark node).follow i w = nodes.follow i w := by
  induction w generalizing i with
  | nil => rfl
  | cons b w ih =>
    rw [follow, follow, child_mark]
    congr 1
    funext c
    exact ih c

theorem Labelled.mark {nodes : TrieNodes} {label : Nat → Bytes} (h : nodes.Labelled label)
    (node : Nat) : (nodes.mark node).Labelled label where
  sorted i := by
    rw [edges_mark]
    exact h.sorted i
  root_lt := by simpa using h.root_lt
  root := h.root
  child_lt hc := by
    rw [child_mark] at hc
    simpa using h.child_lt hc
  child_label hc := by
    rw [child_mark] at hc
    exact h.child_label hc
  reached hi := by
    rw [follow_mark]
    exact h.reached (by simpa using hi)

/-- Growing adds one path and changes no other. -/
theorem Labelled.follow_grow {nodes : TrieNodes} {label : Nat → Bytes} (h : nodes.Labelled label)
    {node : Nat} {byte : UInt8} (hnode : node < nodes.length)
    (habsent : nodes.child node byte = none) (w : Bytes) :
    (nodes.grow node byte).follow 0 w =
      if w = label node ++ [byte] then some nodes.length else nodes.follow 0 w := by
  induction w using List.reverseRecOn with
  | nil =>
    have : ([] : Bytes) ≠ label node ++ [byte] := by simp
    rw [if_neg this]
    rfl
  | append_singleton w b ih =>
    rw [follow_concat, follow_concat, ih]
    by_cases hw : w = label node ++ [byte]
    · -- past the fresh node there is nothing yet
      have hlong : w ++ [b] ≠ label node ++ [byte] := by
        intro heq
        have := congrArg List.length heq
        rw [hw] at this
        simp at this
      have hold : nodes.follow 0 w = none := by
        rw [hw, follow_concat, h.reached hnode]
        exact habsent
      have hfresh : nodes.child nodes.length b = none := by
        simp [child, edges, TrieNode.default]
      rw [if_pos hw, if_neg hlong, hold]
      simp only [Option.bind_some, Option.bind_none]
      rw [child_grow h.sorted hnode habsent, if_neg (by omega), hfresh]
    · rw [if_neg hw]
      cases hi : nodes.follow 0 w with
      | none =>
        have hne : w ++ [b] ≠ label node ++ [byte] := by
          intro heq
          have hw' : w = label node := (List.append_inj' heq rfl).1
          rw [hw', h.reached hnode] at hi
          cases hi
        rw [if_neg hne]
        rfl
      | some i =>
        have hlab := h.follow_label hi
        simp only [Option.bind_some]
        rw [child_grow h.sorted hnode habsent]
        by_cases hib : i = node ∧ b = byte
        · rw [if_pos hib, if_pos (by rw [← hlab.2, hib.1, hib.2])]
        · have hne : w ++ [b] ≠ label node ++ [byte] := by
            intro heq
            obtain ⟨hw', hb⟩ := List.append_inj' heq rfl
            have hinode : i = node := by
              have hreach := h.reached hnode
              rw [← hw', hi] at hreach
              exact Option.some.inj hreach
            exact hib ⟨hinode, by simpa using hb⟩
          rw [if_neg hib, if_neg hne]

theorem Labelled.grow {nodes : TrieNodes} {label : Nat → Bytes} (h : nodes.Labelled label)
    {node : Nat} {byte : UInt8} (hnode : node < nodes.length)
    (habsent : nodes.child node byte = none) :
    (nodes.grow node byte).Labelled
      (Function.update label nodes.length (label node ++ [byte])) where
  sorted := sorted_grow h.sorted hnode habsent
  root_lt := by simp
  root := by rw [Function.update_of_ne (Nat.ne_of_lt h.root_lt), h.root]
  child_lt {i b c} hc := by
    rw [child_grow h.sorted hnode habsent] at hc
    rw [length_grow]
    split at hc
    · simp only [Option.some.injEq] at hc
      omega
    · exact Nat.lt_succ_of_lt (h.child_lt hc)
  child_label {i b c} hc := by
    rw [child_grow h.sorted hnode habsent] at hc
    split at hc
    · rename_i hib
      simp only [Option.some.injEq] at hc
      subst hc
      rw [Function.update_self, hib.1, hib.2, Function.update_of_ne (Nat.ne_of_lt hnode)]
    · have hclt := h.child_lt hc
      have hilt : i < nodes.length := by
        by_contra hge
        have hnone : nodes[i]? = none := List.getElem?_eq_none (Nat.le_of_not_lt hge)
        simp [child, edges, hnone, TrieNode.default] at hc
      rw [Function.update_of_ne (Nat.ne_of_lt hclt), Function.update_of_ne (Nat.ne_of_lt hilt),
        h.child_label hc]
  reached {i} hi := by
    rw [h.follow_grow hnode habsent]
    rw [length_grow] at hi
    by_cases hfresh : i = nodes.length
    · rw [hfresh, Function.update_self, if_pos rfl]
    · have hlt : i < nodes.length := by omega
      rw [Function.update_of_ne hfresh]
      have hne : label i ≠ label node ++ [byte] := by
        intro heq
        have hreach := h.reached hlt
        rw [heq, follow_concat, h.reached hnode] at hreach
        rw [Option.bind_some, habsent] at hreach
        cases hreach
      rw [if_neg hne, h.reached hlt]

/-! ### Inserting a name -/

/-- Inserting `bytes` under the node labelled `u` adds the paths between
`u` and `u ++ bytes` and marks the last one. -/
theorem Labelled.insertFrom {nodes : TrieNodes} {label : Nat → Bytes} (h : nodes.Labelled label)
    {node : Nat} (hnode : node < nodes.length) (bytes : Bytes) :
    ∃ label', (nodes.insertFrom node bytes).Labelled label' ∧
      (∀ w, ((nodes.insertFrom node bytes).follow 0 w).isSome ↔
        (nodes.follow 0 w).isSome ∨ ∃ v, v <+: bytes ∧ w = label node ++ v) ∧
      (∀ w i, (nodes.insertFrom node bytes).follow 0 w = some i →
        ((nodes.insertFrom node bytes).isTerminal i = true ↔
          (∃ j, nodes.follow 0 w = some j ∧ nodes.isTerminal j = true) ∨
            w = label node ++ bytes)) := by
  induction bytes generalizing nodes label node with
  | nil =>
    refine ⟨label, h.mark node, fun w => ?_, fun w i hw => ?_⟩
    · simp only [TrieNodes.insertFrom, follow_mark, List.prefix_nil, exists_eq_left,
        List.append_nil]
      constructor
      · exact .inl
      · rintro (hw | rfl)
        · exact hw
        · rw [h.reached hnode]; rfl
    · simp only [TrieNodes.insertFrom, follow_mark] at hw ⊢
      rw [isTerminal_mark hnode, Bool.or_eq_true, decide_eq_true_eq, List.append_nil]
      have hwi : i = node ↔ w = label node := by
        rw [← h.follow_eq_iff hnode, hw, Option.some.injEq]
      rw [hwi]
      constructor
      · rintro (hl | ht)
        · exact .inr hl
        · exact .inl ⟨i, hw, ht⟩
      · rintro (⟨j, hj, ht⟩ | hl)
        · rw [hw, Option.some.injEq] at hj
          subst hj
          exact .inr ht
        · exact .inl hl
  | cons byte rest ih =>
    have hsplit : ∀ (u w : Bytes), (∃ v, v <+: byte :: rest ∧ w = u ++ v) ↔
        w = u ∨ ∃ v, v <+: rest ∧ w = u ++ [byte] ++ v := by
      intro u w
      constructor
      · rintro ⟨v, hv, rfl⟩
        cases v with
        | nil => exact .inl (List.append_nil u)
        | cons b v =>
          obtain ⟨rfl, hrest⟩ := List.cons_prefix_cons.mp hv
          exact .inr ⟨v, hrest, by simp⟩
      · rintro (rfl | ⟨v, hv, rfl⟩)
        · exact ⟨[], List.nil_prefix, by simp⟩
        · exact ⟨byte :: v, List.cons_prefix_cons.mpr ⟨rfl, hv⟩, by simp⟩
    rw [TrieNodes.insertFrom]
    cases hc : nodes.child node byte with
    | some c =>
      simp only
      obtain ⟨label', hl', hpaths, hterm⟩ := ih h (h.child_lt hc)
      rw [h.child_label hc] at hpaths hterm
      refine ⟨label', hl', fun w => ?_, fun w i hw => ?_⟩
      · rw [hpaths, hsplit]
        constructor
        · rintro (hw | hw)
          · exact .inl hw
          · exact .inr (.inr hw)
        · rintro (hw | rfl | hw)
          · exact .inl hw
          · exact .inl (by rw [h.reached hnode]; rfl)
          · exact .inr hw
      · rw [hterm w i hw]
        simp
    | none =>
      simp only
      have hg := h.grow hnode hc
      have hlt : nodes.length < (nodes.grow node byte).length := by simp
      obtain ⟨label', hl', hpaths, hterm⟩ := ih hg hlt
      rw [Function.update_self] at hpaths hterm
      refine ⟨label', hl', fun w => ?_, fun w i hw => ?_⟩
      · rw [hpaths, hsplit, h.follow_grow hnode hc]
        constructor
        · rintro (hw | hw)
          · split at hw
            · rename_i heq
              exact .inr (.inr ⟨[], List.nil_prefix, by simpa using heq⟩)
            · exact .inl hw
          · exact .inr (.inr hw)
        · rintro (hw | rfl | hw)
          · refine .inl ?_
            split
            · rfl
            · exact hw
          · refine .inl ?_
            rw [if_neg (by simp), h.reached hnode]
            rfl
          · exact .inr hw
      · rw [hterm w i hw]
        have hfresh : nodes.isTerminal nodes.length = false := by
          simp [isTerminal, TrieNode.default]
        have hold : (∃ j, (nodes.grow node byte).follow 0 w = some j ∧
              (nodes.grow node byte).isTerminal j = true) ↔
            ∃ j, nodes.follow 0 w = some j ∧ nodes.isTerminal j = true := by
          rw [h.follow_grow hnode hc]
          simp only [isTerminal_grow]
          by_cases heq : w = label node ++ [byte]
          · have hnone : nodes.follow 0 w = none := by
              rw [heq, follow_concat, h.reached hnode]
              exact hc
            rw [if_pos heq, hnone]
            simp [hfresh]
          · rw [if_neg heq]
        rw [hold]
        simp

end TrieNodes

/-! ## The trie -/

/-- A byte trie over a set of legal completion strings. Node `0` is the
root. -/
structure Trie where
  nodes : TrieNodes
  labelled : ∃ label, nodes.Labelled label

namespace Trie

def root (_ : Trie) : Nat := 0

def child (t : Trie) (node : Nat) (byte : UInt8) : Option Nat := t.nodes.child node byte

def isTerminal (t : Trie) (node : Nat) : Bool := t.nodes.isTerminal node

/-- **The binary search is the lookup**, in every trie. -/
theorem child_eq_lookup (t : Trie) (node : Nat) (byte : UInt8) :
    t.child node byte = (t.nodes.edges node).lookup byte := by
  obtain ⟨_, h⟩ := t.labelled
  exact TrieNodes.child_eq_lookup (h.sorted node) byte

/-- The trie of no names: a lone root. -/
def empty : Trie := ⟨[TrieNode.default], _, TrieNodes.labelled_new⟩

def insert (t : Trie) (bytes : Bytes) : Trie where
  nodes := t.nodes.insertFrom 0 bytes
  labelled := by
    obtain ⟨label, h⟩ := t.labelled
    obtain ⟨label', h', _⟩ := h.insertFrom h.root_lt bytes
    exact ⟨label', h'⟩

def fromNames (names : List Bytes) : Trie := names.foldl insert empty

/-- The node a byte path leads to. -/
def follow (t : Trie) (w : Bytes) : Option Nat := t.nodes.follow 0 w

/-- The path exists and ends a name. -/
def EndsName (t : Trie) (w : Bytes) : Prop := ∃ i, t.follow w = some i ∧ t.isTerminal i = true

theorem follow_insert (t : Trie) (bytes w : Bytes) :
    ((t.insert bytes).follow w).isSome ↔ (t.follow w).isSome ∨ w <+: bytes := by
  obtain ⟨label, h⟩ := t.labelled
  obtain ⟨_, _, hpaths, _⟩ := h.insertFrom h.root_lt bytes
  have hw := hpaths w
  rw [h.root] at hw
  show ((t.nodes.insertFrom 0 bytes).follow 0 w).isSome ↔ (t.nodes.follow 0 w).isSome ∨ _
  simpa using hw

theorem endsName_insert (t : Trie) (bytes w : Bytes) :
    (t.insert bytes).EndsName w ↔ t.EndsName w ∨ w = bytes := by
  obtain ⟨label, h⟩ := t.labelled
  obtain ⟨_, _, hpaths, hterm⟩ := h.insertFrom h.root_lt bytes
  rw [h.root, List.nil_append] at hterm
  constructor
  · rintro ⟨i, hi, ht⟩
    exact (hterm w i hi).mp ht
  · intro hw
    have hsome : ((t.nodes.insertFrom 0 bytes).follow 0 w).isSome := by
      rw [hpaths]
      rcases hw with ⟨i, hi, _⟩ | rfl
      · exact .inl (Option.isSome_iff_exists.mpr ⟨i, hi⟩)
      · exact .inr ⟨w, List.prefix_rfl, by rw [h.root, List.nil_append]⟩
    obtain ⟨i, hi⟩ := Option.isSome_iff_exists.mp hsome
    exact ⟨i, hi, (hterm w i hi).mpr hw⟩

theorem follow_foldl_insert (names : List Bytes) (t : Trie) (w : Bytes) :
    ((names.foldl insert t).follow w).isSome ↔ (t.follow w).isSome ∨ ∃ n ∈ names, w <+: n := by
  induction names generalizing t with
  | nil => simp
  | cons n names ih =>
    rw [List.foldl_cons, ih, follow_insert]
    simp [or_assoc]

theorem endsName_foldl_insert (names : List Bytes) (t : Trie) (w : Bytes) :
    (names.foldl insert t).EndsName w ↔ t.EndsName w ∨ w ∈ names := by
  induction names generalizing t with
  | nil => simp
  | cons n names ih =>
    rw [List.foldl_cons, ih, endsName_insert]
    simp [or_assoc]

/-- **The paths of a trie** are the empty one and the prefixes of its
names. -/
theorem follow_fromNames (names : List Bytes) (w : Bytes) :
    ((fromNames names).follow w).isSome ↔ w = [] ∨ Completion.Live {n | n ∈ names} w := by
  rw [fromNames, follow_foldl_insert]
  have hroot : ((empty.follow w).isSome : Prop) ↔ w = [] := by
    cases w with
    | nil => simp [follow, TrieNodes.follow]
    | cons b w => simp [follow, TrieNodes.follow, empty]
  rw [hroot]
  rfl

/-- **The names of a trie** are the paths that end at a terminal node. -/
theorem endsName_fromNames (names : List Bytes) (w : Bytes) :
    (fromNames names).EndsName w ↔ w ∈ names := by
  rw [fromNames, endsName_foldl_insert]
  have hroot : ¬ empty.EndsName w := by
    rintro ⟨i, hi, ht⟩
    cases i <;> simp [isTerminal, empty, TrieNodes.isTerminal, TrieNode.default] at ht
  simp [hroot]

theorem isTerminal_fromNames {names : List Bytes} {w : Bytes} {node : Nat}
    (h : (fromNames names).follow w = some node) :
    (fromNames names).isTerminal node = true ↔ w ∈ names := by
  rw [← endsName_fromNames]
  constructor
  · intro ht
    exact ⟨node, h, ht⟩
  · rintro ⟨i, hi, ht⟩
    rw [h, Option.some.injEq] at hi
    exact hi ▸ ht

theorem follow_concat_of_follow {t : Trie} {w : Bytes} {node : Nat} (h : t.follow w = some node)
    (b : UInt8) : t.follow (w ++ [b]) = t.child node b := by
  rw [follow, TrieNodes.follow_concat]
  rw [follow] at h
  rw [h]
  rfl

/-- Two paths to one node are the same path. -/
theorem follow_injective {t : Trie} {u w : Bytes} {node : Nat} (hu : t.follow u = some node)
    (hw : t.follow w = some node) : u = w := by
  obtain ⟨label, h⟩ := t.labelled
  rw [← (h.follow_label hu).2, (h.follow_label hw).2]

end Trie

/-! ## The walk -/

/-- The outcome of walking a token's bytes from a cursor node. -/
inductive Walk where
  | stay (node : Nat)
  | complete
  | diverge
  deriving DecidableEq, Repr

/-- Walk `bytes` from cursor `node`. -/
def walk (trie : Trie) (node : Nat) : Bytes → Walk
  | [] => .stay node
  | byte :: rest =>
    match trie.child node byte with
    | some child => walk trie child rest
    | none => if trie.isTerminal node && !isIdentTail byte then .complete else .diverge

/-- What a walk says, without the node. -/
def Walk.verdict : Walk → Completion.Verdict
  | .stay _ => .live
  | .complete => .done
  | .diverge => .off

/-- The byte that may stand right after a finished name. -/
def EndsIdent (b : UInt8) : Prop := isIdentTail b = false

/-- **The walk is the verdict** of the names the trie was built from. -/
theorem walk_eq_verdict {names : List Bytes} {p : Bytes} {cursor : Nat}
    (h : (Trie.fromNames names).follow p = some cursor) (bytes : Bytes) :
    (walk (Trie.fromNames names) cursor bytes).verdict =
      Completion.verdict {n | n ∈ names} EndsIdent p bytes := by
  induction bytes generalizing p cursor with
  | nil => rfl
  | cons b rest ih =>
    have hpath := Trie.follow_fromNames names (p ++ [b])
    rw [Trie.follow_concat_of_follow h] at hpath
    simp only [List.append_eq_nil_iff, List.cons_ne_self, and_false, false_or] at hpath
    cases hc : (Trie.fromNames names).child cursor b with
    | some c =>
      rw [hc] at hpath
      rw [walk, hc, Completion.verdict, if_pos (hpath.mp rfl)]
      exact ih (by rw [Trie.follow_concat_of_follow h, hc])
    | none =>
      have hoff : ¬ Completion.Live {n | n ∈ names} (p ++ [b]) := by
        rw [← hpath, hc]
        simp
      have hcond : ((Trie.fromNames names).isTerminal cursor && !isIdentTail b) = true ↔
          p ∈ {n | n ∈ names} ∧ EndsIdent b := by
        rw [Bool.and_eq_true, Bool.not_eq_true', Trie.isTerminal_fromNames h]
        rfl
      rw [walk, hc, Completion.verdict, if_neg hoff]
      by_cases hn : p ∈ {n | n ∈ names} ∧ EndsIdent b
      · rw [if_pos hn]
        simp only [hcond.mpr hn, if_true]
        rfl
      · rw [if_neg hn]
        simp only [Bool.eq_false_iff.mpr (mt hcond.mp hn)]
        rfl

/-- A walk from the root that stays ends at the node of its path. -/
theorem follow_of_walk_stay {trie : Trie} {p bytes : Bytes} {cursor node : Nat}
    (h : trie.follow p = some cursor) (hw : walk trie cursor bytes = .stay node) :
    trie.follow (p ++ bytes) = some node := by
  induction bytes generalizing p cursor with
  | nil =>
    rw [walk, Walk.stay.injEq] at hw
    rw [List.append_nil, h, hw]
  | cons b rest ih =>
    rw [walk] at hw
    cases hc : trie.child cursor b with
    | some c =>
      rw [hc] at hw
      have hstep : trie.follow (p ++ [b]) = some c := by rw [Trie.follow_concat_of_follow h, hc]
      simpa using ih hstep hw
    | none =>
      rw [hc] at hw
      dsimp only at hw
      split at hw <;> cases hw

theorem follow_root (trie : Trie) : trie.follow [] = some trie.root := rfl

end PureCard
