import UfsRedis.Lib.Linked
import UfsRedis.Sds

/-!
# The quicklist

`src/quicklist.c`: a linked list of nodes, each with a ziplist of elements. Nodes away from both ends
are compressed with LZF, and a node has to be decompressed before its ziplist is read.

A ziplist is the list of its elements, and a pointer into it is the place of an element. The encodings
of the nodes are a table of their own (`flags`), so that compressing a node is seen to change nothing
else. Whether LZF makes a ziplist smaller is left open: `shrinks` may be any function of its elements.
Reading the ziplist of a compressed node is a fault.
-/

namespace UfsRedis

open List

variable {E : Type}

/-! ## The parts of a ziplist that the quicklist uses -/

namespace Ziplist

/-- `ziplistIndex`: negative indexes count from the tail. `none` is `NULL`. -/
def ziplistIndex (zl : List E) (index : Int) : Option Nat :=
  if index < 0 then
    if (-index).toNat ≤ zl.length then some (zl.length - (-index).toNat) else none
  else if index.toNat < zl.length then some index.toNat else none

/-- `ziplistDeleteRange`: at most `num` elements, up to the end. -/
def ziplistDeleteRange (zl : List E) (index : Int) (num : Nat) : List E :=
  match ziplistIndex zl index with
  | none => zl
  | some p => zl.take p ++ zl.drop (p + num)

end Ziplist

/-- `a - b` for `unsigned long`. -/
def sub64 (a b : Nat) : Nat := (a + 2 ^ 64 - b % 2 ^ 64) % 2 ^ 64

/-- `a - b` for a field of 16 bits. -/
def sub16 (a b : Nat) : Nat := (a + 2 ^ 16 - b % 2 ^ 16) % 2 ^ 16

/-- `quicklistNode`. `id` is the address, and the neighbours are those in the list of nodes. -/
structure QuicklistNode (E : Type) where
  id : Nat
  count : Nat
  zl : List E
  deriving DecidableEq, Repr

/-- The fields `encoding` and `recompress` of a node. -/
structure NodeFlags where
  lzf : Bool
  recompress : Bool
  deriving DecidableEq, Repr

/-- `quicklist`. -/
structure Quicklist (E : Type) where
  nodes : List (QuicklistNode E)
  count : Nat
  len : Nat
  compress : Nat
  flags : Nat → NodeFlags

namespace Quicklist

/-! ## Nodes -/

def node (ql : Quicklist E) (id : Nat) : Except Fault (QuicklistNode E) :=
  UfsRedis.deref (Lib.Linked.find QuicklistNode.id ql.nodes id)

/-- `node->next`. -/
def next (ql : Quicklist E) (id : Nat) : Option Nat := Lib.Linked.next QuicklistNode.id ql.nodes id

/-- `node->prev`. -/
def prev (ql : Quicklist E) (id : Nat) : Option Nat := Lib.Linked.prev QuicklistNode.id ql.nodes id

def setFlags (ql : Quicklist E) (id : Nat) (f : NodeFlags) : Quicklist E :=
  { ql with flags := fun i => if i = id then f else ql.flags i }

def setNode (ql : Quicklist E) (id : Nat) (count : Nat) (zl : List E) : Quicklist E :=
  { ql with nodes := Lib.Linked.update QuicklistNode.id ql.nodes id fun n =>
      { n with count := count, zl := zl } }

/-- `node->zl`, where a ziplist is expected. -/
def ziplist (ql : Quicklist E) (id : Nat) : Except Fault (List E) := do
  let n ← ql.node id
  if (ql.flags id).lzf then .error .readPastEnd else return n.zl

/-- `quicklistDecompressNode`. -/
def decompressNode (ql : Quicklist E) (id : Nat) : Quicklist E :=
  if (ql.flags id).lzf then ql.setFlags id { ql.flags id with lzf := false } else ql

/-- `quicklistDecompressNodeForUse`. -/
def decompressNodeForUse (ql : Quicklist E) (id : Nat) : Quicklist E :=
  if (ql.flags id).lzf then ql.setFlags id ⟨false, true⟩ else ql

section

variable (shrinks : List E → Bool)

/-- `quicklistCompressNode`. -/
def compressNode (ql : Quicklist E) (id : Nat) : Except Fault (Quicklist E) := do
  let n ← ql.node id
  if (ql.flags id).lzf then return ql
  if shrinks n.zl then return ql.setFlags id ⟨true, false⟩ else return ql

/-- `quicklistCompressNode`, which is also called with `NULL`. -/
def compressNode? (ql : Quicklist E) : Option Nat → Except Fault (Quicklist E)
  | none => .ok ql
  | some id => ql.compressNode shrinks id

/-- The loop of `__quicklistCompress`, with `n` rounds left. `none` in the last result is a return
from the function; otherwise it is `in_depth` and the pointers behind the loop. -/
def compressLoop (node : Option Nat) : Nat → Option Nat → Option Nat → Bool → Quicklist E →
    Except Fault (Quicklist E × Option (Bool × Option Nat × Option Nat))
  | 0, forward, reverse, inDepth, ql => .ok (ql, some (inDepth, forward, reverse))
  | n + 1, forward, reverse, inDepth, ql => do
    let f ← UfsRedis.deref forward
    let r ← UfsRedis.deref reverse
    let ql := (ql.decompressNode f).decompressNode r
    let inDepth := inDepth || node = some f || node = some r
    if f = r then return (ql, none)
    compressLoop node n (ql.next f) (ql.prev r) inDepth ql

/-- `__quicklistCompress`. Behind the loop `depth` is `compress + 1`. -/
def compressEnds (ql : Quicklist E) (node : Option Nat) : Except Fault (Quicklist E) := do
  if ql.compress = 0 ∨ ql.len < ql.compress * 2 then return ql
  let (ql, left) ← compressLoop node ql.compress (ql.nodes.head?.map (·.id))
    (ql.nodes.getLast?.map (·.id)) false ql
  match left with
  | none => return ql
  | some (inDepth, forward, reverse) =>
    let ql ← if inDepth then pure ql else ql.compressNode? shrinks node
    if ql.compress + 1 > 2 then
      let ql ← ql.compressNode? shrinks forward
      ql.compressNode? shrinks reverse
    else return ql

/-- `quicklistRecompressOnly`. -/
def recompressOnly (ql : Quicklist E) (id : Nat) : Except Fault (Quicklist E) :=
  if (ql.flags id).recompress then ql.compressNode shrinks id else .ok ql

/-- `__quicklistDelNode`. The node is taken out before `__quicklistCompress` is called, and `len` is
counted down after it. -/
def delNode (ql : Quicklist E) (id : Nat) : Except Fault (Quicklist E) := do
  let n ← ql.node id
  let ql ← ({ ql with nodes := Lib.Linked.remove QuicklistNode.id ql.nodes id } : Quicklist E).compressEnds
    shrinks none
  return { ql with count := sub64 ql.count n.count, len := sub64 ql.len 1 }

end

/-! ## Quicklists -/

def elements (ql : Quicklist E) : List E := ql.nodes.flatMap (·.zl)

/-- The counters count, in a list that fits in memory, and the nodes have different addresses. -/
structure Ok (ql : Quicklist E) : Prop where
  nodup : (ql.nodes.map (·.id)).Nodup
  node_count : ∀ n ∈ ql.nodes, n.count = n.zl.length ∧ n.count < 2 ^ 16
  count_eq : ql.count = ql.elements.length
  count_lt : ql.count < 2 ^ 63
  len_eq : ql.len = ql.nodes.length
  len_lt : ql.len < 2 ^ 63

variable {ql : Quicklist E} {pre post : List (QuicklistNode E)} {n : QuicklistNode E}
  {shrinks : List E → Bool} {a b id : Nat}

theorem sub64_of_le (h : b ≤ a) (ha : a < 2 ^ 64) : sub64 a b = a - b := by
  unfold sub64
  omega

theorem sub16_of_le (h : b ≤ a) (ha : a < 2 ^ 16) : sub16 a b = a - b := by
  unfold sub16
  omega

def SameBut (ql ql' : Quicklist E) : Prop := ∃ fl, ql' = { ql with flags := fl }

theorem SameBut.refl (ql : Quicklist E) : ql.SameBut ql := ⟨ql.flags, rfl⟩

theorem SameBut.trans {ql₁ ql₂ ql₃ : Quicklist E} (h : ql₁.SameBut ql₂) (h' : ql₂.SameBut ql₃) :
    ql₁.SameBut ql₃ := by
  obtain ⟨f, rfl⟩ := h
  obtain ⟨g, rfl⟩ := h'
  exact ⟨g, rfl⟩

theorem sameBut_decompressNode (ql : Quicklist E) (id : Nat) : ql.SameBut (ql.decompressNode id) := by
  unfold decompressNode
  split
  · exact ⟨_, rfl⟩
  · exact .refl _

theorem sameBut_decompressNodeForUse (ql : Quicklist E) (id : Nat) :
    ql.SameBut (ql.decompressNodeForUse id) := by
  unfold decompressNodeForUse
  split
  · exact ⟨_, rfl⟩
  · exact .refl _

theorem lzf_decompressNodeForUse (ql : Quicklist E) (id : Nat) :
    ((ql.decompressNodeForUse id).flags id).lzf = false := by
  unfold decompressNodeForUse setFlags
  cases h : (ql.flags id).lzf with
  | true => simp
  | false => simpa using h

theorem node_eq (hn : (ql.nodes.map (·.id)).Nodup) (h : ql.nodes = pre ++ n :: post) :
    ql.node n.id = .ok n := by
  rw [h] at hn
  unfold node
  rw [h, Lib.Linked.find_eq hn]
  rfl

theorem exists_node (h : id ∈ ql.nodes.map (·.id)) : ∃ n, ql.node id = .ok n := by
  obtain ⟨n, hn, rfl⟩ := mem_map.1 h
  unfold node Lib.Linked.find
  cases hf : ql.nodes.find? (·.id = n.id) with
  | none => exact absurd (by simp) (find?_eq_none.1 hf n hn)
  | some m => exact ⟨m, rfl⟩

theorem compressNode_ok (h : id ∈ ql.nodes.map (·.id)) :
    ∃ ql', ql.compressNode shrinks id = .ok ql' ∧ ql.SameBut ql' := by
  obtain ⟨n, hn⟩ := exists_node h
  unfold compressNode
  rw [hn, ok_bind]
  split
  · exact ⟨ql, rfl, .refl _⟩
  split
  · exact ⟨_, rfl, _, rfl⟩
  · exact ⟨ql, rfl, .refl _⟩

theorem compressNode?_ok {id : Option Nat} (h : ∀ i, id = some i → i ∈ ql.nodes.map (·.id)) :
    ∃ ql', ql.compressNode? shrinks id = .ok ql' ∧ ql.SameBut ql' := by
  obtain _ | i := id
  · exact ⟨ql, rfl, .refl _⟩
  exact compressNode_ok (h i rfl)

theorem compressLoop_ok (hn : (ql.nodes.map (·.id)).Nodup) (node : Option Nat) (inDepth : Bool)
    {k i : Nat} (hlen : 2 * (i + k) ≤ ql.nodes.length + 1) :
    ∃ ql' left, compressLoop node k ((ql.nodes[i]?).map (·.id))
        ((ql.nodes.reverse[i]?).map (·.id)) inDepth ql = .ok (ql', left) ∧ ql.SameBut ql' ∧
      ∀ d f r, left = some (d, f, r) → (∀ j, f = some j → j ∈ ql.nodes.map (·.id)) ∧
        ∀ j, r = some j → j ∈ ql.nodes.map (·.id) := by
  induction k generalizing ql i inDepth with
  | zero =>
    refine ⟨ql, _, rfl, .refl _, ?_⟩
    rintro d f r ⟨⟩
    have mem {l : List (QuicklistNode E)} {j : Nat} (hj : l[i]?.map (·.id) = some j) :
        j ∈ l.map (·.id) := by
      obtain ⟨n, hn, rfl⟩ := Option.map_eq_some_iff.1 hj
      exact mem_map_of_mem (mem_of_getElem? hn)
    refine ⟨fun j hj => mem hj, fun j hj => ?_⟩
    have := mem hj
    rwa [map_reverse, mem_reverse] at this
  | succ k ih =>
    have hi : i < ql.nodes.length := by omega
    obtain ⟨f, hf⟩ : ∃ f, ql.nodes[i]? = some f := ⟨_, getElem?_eq_getElem hi⟩
    obtain ⟨r, hr⟩ : ∃ r, ql.nodes.reverse[i]? = some r :=
      ⟨_, getElem?_eq_getElem (by simpa using hi)⟩
    have hsame : ql.SameBut ((ql.decompressNode f.id).decompressNode r.id) :=
      (ql.sameBut_decompressNode _).trans (sameBut_decompressNode _ _)
    unfold compressLoop
    simp only [hf, hr, Option.map_some, deref_some, ok_bind]
    split
    · exact ⟨_, none, rfl, hsame, by simp⟩
    obtain ⟨fl, hfl⟩ := hsame
    rw [hfl]
    have hnext : ({ ql with flags := fl } : Quicklist E).next f.id = ql.nodes[i + 1]?.map (·.id) :=
      Lib.Linked.next_getElem? hn hf
    have hprev : ({ ql with flags := fl } : Quicklist E).prev r.id =
        ql.nodes.reverse[i + 1]?.map (·.id) :=
      Lib.Linked.next_getElem? (by rw [map_reverse]; exact nodup_reverse.2 hn) hr
    rw [hnext, hprev]
    obtain ⟨ql', left, hloop, hsame', hleft⟩ := @ih { ql with flags := fl } hn
      (inDepth || node = some f.id || node = some r.id) (i + 1) (by simp; omega)
    exact ⟨ql', left, hloop, .trans ⟨fl, rfl⟩ hsame', hleft⟩

/-- `__quicklistCompress` reads no pointer past the ends, also with a `len` that still counts a
node that has been taken out. -/
theorem compressEnds_ok (hn : (ql.nodes.map (·.id)).Nodup) (hlen : ql.len ≤ ql.nodes.length + 1)
    {node} (hnode : ∀ i, node = some i → i ∈ ql.nodes.map (·.id)) :
    ∃ ql', ql.compressEnds shrinks node = .ok ql' ∧ ql.SameBut ql' := by
  unfold compressEnds
  split
  · exact ⟨ql, rfl, .refl _⟩
  obtain ⟨ql1, left, hloop, ⟨fl, rfl⟩, hleft⟩ :=
    compressLoop_ok hn node false (k := ql.compress) (i := 0) (by omega)
  simp only [← head?_eq_getElem?, head?_reverse] at hloop
  simp only [hloop, ok_bind]
  rcases left with _ | ⟨inDepth, forward, reverse⟩
  · exact ⟨_, rfl, fl, rfl⟩
  obtain ⟨hforward, hreverse⟩ := hleft _ _ _ rfl
  -- the nodes behind the loop
  have behind (f2 : Nat → NodeFlags) : ∃ ql', (if ql.compress + 1 > 2 then do
      let ql ← ({ ql with flags := f2 } : Quicklist E).compressNode? shrinks forward
      ql.compressNode? shrinks reverse
      else pure { ql with flags := f2 }) = .ok ql' ∧ ql.SameBut ql' := by
    split
    · obtain ⟨ql3, h3, f3, rfl⟩ := @compressNode?_ok _ { ql with flags := f2 } shrinks _ hforward
      obtain ⟨ql4, h4, f4, rfl⟩ := @compressNode?_ok _ { ql with flags := f3 } shrinks _ hreverse
      exact ⟨{ ql with flags := f4 }, by simp only [h3, ok_bind, h4], f4, rfl⟩
    · exact ⟨_, rfl, f2, rfl⟩
  cases inDepth with
  | true => exact behind fl
  | false =>
    obtain ⟨ql2, h2, f2, rfl⟩ := @compressNode?_ok _ { ql with flags := fl } shrinks _ hnode
    simp only [Bool.false_eq_true, if_false, h2, ok_bind]
    exact behind f2

theorem recompressOnly_ok (hid : id ∈ ql.nodes.map (·.id)) :
    ∃ ql', ql.recompressOnly shrinks id = .ok ql' ∧ ql.SameBut ql' := by
  unfold recompressOnly
  split
  · exact compressNode_ok hid
  · exact ⟨ql, rfl, .refl _⟩

theorem delNode_ok (hn : (ql.nodes.map (·.id)).Nodup) (hlen : ql.len = ql.nodes.length)
    (h : ql.nodes = pre ++ n :: post) : ∃ fl, ql.delNode shrinks n.id = .ok
      { ql with nodes := pre ++ post, count := sub64 ql.count n.count, len := sub64 ql.len 1,
                flags := fl } := by
  have hn' := hn
  rw [h] at hn'
  have hremove : Lib.Linked.remove QuicklistNode.id ql.nodes n.id = pre ++ post := by
    rw [h]
    exact Lib.Linked.remove_eq hn'
  obtain ⟨ql', hc, fl, rfl⟩ := @compressEnds_ok _ { ql with nodes := pre ++ post } shrinks
    (hn'.sublist (((sublist_cons_self n post).append_left pre).map _)) (by simp [hlen, h]; omega)
    none (by simp)
  refine ⟨fl, ?_⟩
  unfold delNode
  rw [node_eq hn h, ok_bind, hremove, hc]
  rfl

end Quicklist

end UfsRedis
