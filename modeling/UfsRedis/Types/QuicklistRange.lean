import Mathlib.Algebra.Group.Int.Defs
import UfsRedis.Types.Quicklist

/-!
# Deleting a range of a quicklist

`quicklistIndex` and `quicklistDelRange`. In each node the loop deletes a number of elements that it
computes from the offset, the number of elements that are left to delete and the count of the node, and
subtracts that number from the counters.
-/

namespace UfsRedis

variable {E : Type}

open List Ziplist

/-- `-n` for a `long`. -/
def negLong (n : Int) : Except Fault Int := if n = -2 ^ 63 then .error .intOverflow else .ok (-n)

/-- `quicklistEntry`. -/
structure QuicklistEntry (E : Type) where
  node : Nat
  zi : Option Nat
  value : Option E
  offset : Int
  deriving DecidableEq, Repr

namespace Quicklist

/-- The loop of `quicklistIndex` over the nodes from one end. -/
def findNode (index : Nat) : List (QuicklistNode E) → Nat → Option (QuicklistNode E × Nat)
  | [], _ => none
  | n :: ns, accum =>
    if accum + n.count > index then some (n, accum) else findNode index ns (accum + n.count)

/-- `quicklistIndex`; `none` is the result 0. -/
def quicklistIndex (ql : Quicklist E) (idx : Int) :
    Except Fault (Option (Quicklist E × QuicklistEntry E)) := do
  let index ← if idx < 0 then do let m ← negLong idx; pure (m - 1).toNat else pure idx.toNat
  if index ≥ ql.count then return none
  match findNode index (if idx < 0 then ql.nodes.reverse else ql.nodes) 0 with
  | none => return none
  | some (n, accum) =>
    let offset : Int := if idx < 0 then -index - 1 + accum else index - accum
    let ql := ql.decompressNodeForUse n.id
    let zl ← ql.ziplist n.id
    let zi := ziplistIndex zl offset
    return some (ql, ⟨n.id, zi, zi.bind (zl[·]?), offset⟩)

section

variable (shrinks : List E → Bool)

/-- The part of the loop of `quicklistDelRange` that deletes `del` elements of a node, with
`quicklistDeleteIfEmpty`. -/
def delFromNode (ql : Quicklist E) (id : Nat) (offset : Int) (del : Nat) :
    Except Fault (Quicklist E) := do
  let n ← ql.node id
  let ql := ql.decompressNodeForUse id
  let zl ← ql.ziplist id
  let ql := ql.setNode id (sub16 n.count del) (ziplistDeleteRange zl offset del)
  let ql := { ql with count := sub64 ql.count del }
  if sub16 n.count del = 0 then ql.delNode shrinks id else ql.recompressOnly shrinks id

/-- `del` of `quicklistDelRange`. -/
def delCount (count : Nat) (offset : Int) (extent : Nat) : Nat :=
  if offset = 0 ∧ extent ≥ count then count
  else if offset ≥ 0 ∧ extent ≥ count then count - offset.toNat
  else if offset < 0 then if (-offset).toNat > extent then extent else (-offset).toNat
  else extent

/-- The loop of `quicklistDelRange`. -/
def delRangeLoop : Nat → Quicklist E → Option Nat → Int → Nat → Except Fault (Quicklist E)
  | fuel, ql, node, offset, extent =>
    if extent = 0 then .ok ql
    else
      match fuel with
      | 0 => .error .noFuel
      | fuel + 1 => do
        let id ← UfsRedis.deref node
        let n ← ql.node id
        let next := ql.next id
        let del := delCount n.count offset extent
        let ql ← if offset = 0 ∧ extent ≥ n.count then ql.delNode shrinks id
          else ql.delFromNode shrinks id offset del
        delRangeLoop fuel ql next 0 (sub64 extent del)

/-- `quicklistDelRange`; the result says whether it is 1. -/
def quicklistDelRange (ql : Quicklist E) (start count : Int) : Except Fault (Quicklist E × Bool) := do
  if count ≤ 0 then return (ql, false)
  let extent ←
    if start ≥ 0 then
      pure (if count.toNat > sub64 ql.count start.toNat then sub64 ql.count start.toNat
        else count.toNat)
    else do
      let m ← negLong start
      pure (if count.toNat > m.toNat then m.toNat else count.toNat)
  match ← ql.quicklistIndex start with
  | none => return (ql, false)
  | some (ql, entry) =>
    let ql ← delRangeLoop shrinks (ql.nodes.length + 1) ql (some entry.node) entry.offset extent
    return (ql, true)

end

/-! ## What is deleted -/

/-- A list without `count` elements from `start` on, and whether there are any. -/
def rangeDeleted (l : List E) (start count : Int) : List E × Bool :=
  if count ≤ 0 then (l, false)
  else
    match ziplistIndex l start with
    | none => (l, false)
    | some p => (l.take p ++ l.drop (p + count.toNat), true)

/-- A range of `count` elements from `start` on that does not leave its first node in the middle of it:
it starts with the node, has no fewer elements than it, or ends in it. -/
def FitsFirstNode (ql : Quicklist E) (start count : Nat) : Prop :=
  ∀ n accum, findNode start ql.nodes 0 = some (n, accum) →
    accum = start ∨ n.count ≤ min count (ql.count - start) ∨
      start - accum + min count (ql.count - start) ≤ n.count

section

variable {shrinks : List E → Bool} {ql : Quicklist E} {pre post : List (QuicklistNode E)}
  {n : QuicklistNode E} {offset : Int} {o del extent fuel : Nat}

theorem ziplistIndex_eq_some : ziplistIndex zl offset = some o ↔
    o < zl.length ∧ (0 ≤ offset ∧ (o : Int) = offset ∨ offset < 0 ∧ (o : Int) = zl.length + offset) := by
  unfold ziplistIndex
  split <;> split <;> simp <;> omega

theorem ziplistIndex_eq_none : ziplistIndex zl offset = none ↔
    offset < 0 ∧ zl.length + offset < 0 ∨ (zl.length : Int) ≤ offset := by
  unfold ziplistIndex
  split <;> split <;> simp <;> omega

theorem negLong_eq {n : Int} (h : n ≠ -2 ^ 63) : negLong n = .ok (-n) := if_neg h

theorem elements_eq (h : ql.nodes = pre ++ n :: post) :
    ql.elements = pre.flatMap (·.zl) ++ n.zl ++ post.flatMap (·.zl) := by
  simp [elements, h]

section

variable (hok : ql.Ok) (h : ql.nodes = pre ++ n :: post)
include hok h

theorem Ok.length_le : n.count = n.zl.length ∧ n.count < 2 ^ 16 ∧ n.count ≤ ql.count ∧
      ql.count = (pre.flatMap (·.zl)).length + n.zl.length + (post.flatMap (·.zl)).length := by
  obtain ⟨hc, hlt⟩ := hok.node_count n (by simp [h])
  have hsum := hok.count_eq
  rw [elements_eq h, length_append, length_append] at hsum
  exact ⟨hc, hlt, by omega, hsum⟩

variable {fl : Nat → NodeFlags}

theorem Ok.replace {zl} (hle : zl.length ≤ n.count) : Ok { ql with
      nodes := pre ++ ⟨n.id, zl.length, zl⟩ :: post, count := ql.count - (n.count - zl.length),
      flags := fl } := by
  obtain ⟨hc, hlt, hcount, hsum⟩ := hok.length_le h
  have hids : (pre ++ ⟨n.id, zl.length, zl⟩ :: post).map (·.id) = ql.nodes.map (·.id) := by simp [h]
  refine ⟨?_, ?_, ?_, ?_, ?_, hok.len_lt⟩
  · show (List.map _ _).Nodup
    rw [hids]
    exact hok.nodup
  · intro m hm
    rcases mem_append.1 hm with hm | hm
    · exact hok.node_count m (by simp [h, hm])
    rcases mem_cons.1 hm with rfl | hm
    · exact ⟨rfl, by show zl.length < _; omega⟩
    · exact hok.node_count m (by simp [h, hm])
  · show ql.count - _ = (flatMap _ _).length
    simp only [flatMap_append, flatMap_cons, length_append]
    omega
  · have := hok.count_lt
    show ql.count - _ < _
    omega
  show ql.len = _
  rw [hok.len_eq, h]
  simp

theorem Ok.remove : Ok { ql with
      nodes := pre ++ post, count := ql.count - n.count, len := ql.len - 1, flags := fl } := by
  obtain ⟨hc, hlt, hcount, hsum⟩ := hok.length_le h
  have hsub : (pre ++ post).Sublist ql.nodes := by
    rw [h]
    exact (sublist_cons_self n post).append_left pre
  refine ⟨hok.nodup.sublist (hsub.map _), fun m hm => hok.node_count m (hsub.subset hm), ?_, ?_, ?_, ?_⟩
  · show ql.count - _ = (flatMap _ _).length
    simp only [flatMap_append, length_append]
    omega
  · have := hok.count_lt
    show ql.count - _ < _
    omega
  · show ql.len - 1 = _
    rw [hok.len_eq, h]
    simp
  have := hok.len_lt
  show ql.len - 1 < _
  omega

theorem delNode_exact : ∃ fl, ql.delNode shrinks n.id = .ok { ql with
      nodes := pre ++ post, count := ql.count - n.count, len := ql.len - 1, flags := fl } := by
  obtain ⟨-, -, hcount, -⟩ := hok.length_le h
  have hlen := hok.len_eq
  rw [h] at hlen
  simp at hlen
  have hc := hok.count_lt
  have hl := hok.len_lt
  obtain ⟨fl, hdel⟩ := @delNode_ok _ _ _ _ _ shrinks hok.nodup hok.len_eq h
  rw [sub64_of_le hcount (by omega), sub64_of_le (by omega) (by omega)] at hdel
  exact ⟨fl, hdel⟩

end

theorem ziplist_decompressNodeForUse (hn : (ql.nodes.map (·.id)).Nodup)
    (h : ql.nodes = pre ++ n :: post) : (ql.decompressNodeForUse n.id).ziplist n.id = .ok n.zl := by
  have hlzf := ql.lzf_decompressNodeForUse n.id
  obtain ⟨fl, hfl⟩ := ql.sameBut_decompressNodeForUse n.id
  rw [hfl] at hlzf ⊢
  have hnode : ({ ql with flags := fl } : Quicklist E).node n.id = .ok n := node_eq hn h
  unfold ziplist
  rw [hnode, ok_bind, hlzf]
  rfl

theorem delFromNode_ok (hok : ql.Ok) (h : ql.nodes = pre ++ n :: post) (hdel : del ≤ n.count) :
    ∃ fl, ql.delFromNode shrinks n.id offset del = .ok (if n.count - del = 0 then
      { ql with nodes := pre ++ post, count := ql.count - del, len := ql.len - 1, flags := fl } else
      { ql with
        nodes := pre ++ ⟨n.id, n.count - del, ziplistDeleteRange n.zl offset del⟩ :: post
        count := ql.count - del, flags := fl }) := by
  obtain ⟨-, hlt, hcount, -⟩ := hok.length_le h
  have hc := hok.count_lt
  have hl := hok.len_lt
  have hn := hok.nodup
  have hlen := hok.len_eq
  have hzl := ziplist_decompressNodeForUse hok.nodup h
  obtain ⟨fl, hfl⟩ := ql.sameBut_decompressNodeForUse n.id
  rw [hfl] at hzl
  rw [h] at hn hlen
  have hset : ({ ql with flags := fl } : Quicklist E).setNode n.id (n.count - del)
      (ziplistDeleteRange n.zl offset del) = { ql with
        nodes := pre ++ ⟨n.id, n.count - del, ziplistDeleteRange n.zl offset del⟩ :: post
        flags := fl } := by
    unfold setNode
    simp only [h, Lib.Linked.update_eq hn]
  have hcount' : sub64 ql.count del = ql.count - del :=
    sub64_of_le (le_trans hdel hcount) (by omega)
  unfold delFromNode
  rw [node_eq hok.nodup h, ok_bind, hfl]
  dsimp only
  rw [hzl, ok_bind, sub16_of_le hdel hlt, hset]
  rw [hcount']
  have hids : (pre ++ ⟨n.id, n.count - del, ziplistDeleteRange n.zl offset del⟩ :: post).map (·.id) =
      (pre ++ n :: post).map (·.id) := by simp
  by_cases hzero : n.count - del = 0
  · rw [if_pos hzero]
    simp only [if_pos hzero]
    obtain ⟨f2, hdelNode⟩ := @delNode_ok _
      { ql with
        nodes := pre ++ ⟨n.id, n.count - del, ziplistDeleteRange n.zl offset del⟩ :: post
        count := ql.count - del, flags := fl }
      _ _ ⟨n.id, n.count - del, ziplistDeleteRange n.zl offset del⟩ shrinks (by rw [hids]; exact hn)
      (by simpa using hlen) rfl
    refine ⟨f2, ?_⟩
    have hc0 : sub64 (ql.count - del) 0 = ql.count - del := sub64_of_le (Nat.zero_le _) (by omega)
    have hl1 : sub64 ql.len 1 = ql.len - 1 := sub64_of_le (by simp at hlen; omega) (by omega)
    rw [hzero] at hdelNode ⊢
    rw [hdelNode, hc0, hl1]
  rw [if_neg hzero]
  simp only [if_neg hzero]
  obtain ⟨ql', heq, f2, rfl⟩ := @recompressOnly_ok _
    { ql with
      nodes := pre ++ ⟨n.id, n.count - del, ziplistDeleteRange n.zl offset del⟩ :: post
      count := ql.count - del, flags := fl }
    shrinks n.id (by simp)
  exact ⟨f2, heq⟩

/-- A step that deletes the elements of the range in its node leaves the list with right counters. -/
theorem delFromNode_exact (hok : ql.Ok) (h : ql.nodes = pre ++ n :: post)
    (ho : ziplistIndex n.zl offset = some o) (hdel : del = min extent (n.count - o)) :
    ∃ ql' pre', ql.delFromNode shrinks n.id offset del = .ok ql' ∧ ql'.Ok ∧
      ql'.nodes = pre' ++ post ∧
      pre'.flatMap (·.zl) = pre.flatMap (·.zl) ++ (n.zl.take o ++ n.zl.drop (o + extent)) := by
  obtain ⟨hc, hlt, hcount, -⟩ := hok.length_le h
  have hdrop : n.zl.drop (o + del) = n.zl.drop (o + extent) := by
    rcases le_total extent (n.count - o) with hle | hle
    · rw [hdel, min_eq_left hle]
    · rw [hdel, min_eq_right hle, drop_eq_nil_of_le (by omega), drop_eq_nil_of_le (by omega)]
  have hrange : ziplistDeleteRange n.zl offset del = n.zl.take o ++ n.zl.drop (o + extent) := by
    unfold ziplistDeleteRange
    rw [ho, ← hdrop]
  have hlen : (n.zl.take o ++ n.zl.drop (o + extent)).length = n.count - del := by
    rw [← hdrop, length_append, length_take, length_drop]
    omega
  obtain ⟨fl, heq⟩ := @delFromNode_ok _ shrinks _ _ _ _ offset del hok h (by omega)
  rw [hrange] at heq
  split at heq
  · rename_i hzero
    have hnil := eq_nil_of_length_eq_zero (hlen.trans hzero)
    have hall : del = n.count := by omega
    refine ⟨_, pre, heq, ?_, rfl, by rw [hnil, append_nil]⟩
    rw [hall]
    exact hok.remove h
  rw [← hlen] at heq
  refine ⟨_, pre ++ [⟨n.id, (n.zl.take o ++ n.zl.drop (o + extent)).length,
    n.zl.take o ++ n.zl.drop (o + extent)⟩], heq, ?_, ?_, ?_⟩
  · have := @Ok.replace _ _ _ _ _ hok h fl (n.zl.take o ++ n.zl.drop (o + extent)) (by omega)
    rwa [show n.count - (n.zl.take o ++ n.zl.drop (o + extent)).length = del by omega] at this
  · simp
  · simp

theorem delRangeLoop_zero (node : Option Nat) : delRangeLoop shrinks fuel ql node offset 0 = .ok ql := by
  unfold delRangeLoop
  rw [if_pos rfl]

theorem delRangeLoop_succ (hok : ql.Ok) (h : ql.nodes = pre ++ n :: post) (hext : extent ≠ 0) :
    delRangeLoop shrinks (fuel + 1) ql (some n.id) offset extent = (do
      let ql ← if offset = 0 ∧ extent ≥ n.count then ql.delNode shrinks n.id
        else ql.delFromNode shrinks n.id offset (delCount n.count offset extent)
      delRangeLoop shrinks fuel ql (post.head?.map (·.id)) 0
        (sub64 extent (delCount n.count offset extent))) := by
  have hnext : ql.next n.id = post.head?.map (·.id) := by
    have hn := hok.nodup
    rw [h] at hn
    unfold next
    rw [h, Lib.Linked.next_eq hn]
  conv => lhs; unfold delRangeLoop
  rw [if_neg hext]
  simp [node_eq hok.nodup h, hnext]

variable {ns : List (QuicklistNode E)}

/-- The nodes behind the first one: each is deleted as a whole but for the last one of the range. -/
theorem delRangeLoop_tail (hok : ql.Ok) (h : ql.nodes = pre ++ ns)
    (hext : extent ≤ (ns.flatMap (·.zl)).length) (hfuel : ns.length ≤ fuel) :
    ∃ ql', delRangeLoop shrinks fuel ql (ns.head?.map (·.id)) 0 extent = .ok ql' ∧ ql'.Ok ∧
      ql'.elements = pre.flatMap (·.zl) ++ (ns.flatMap (·.zl)).drop extent := by
  by_cases hzero : extent = 0
  · subst hzero
    exact ⟨ql, delRangeLoop_zero _, hok, by simp [elements, h]⟩
  induction ns generalizing ql pre extent fuel with
  | nil => simp at hext; omega
  | cons n post ih =>
    obtain ⟨hc, hlt, hcount, hsum⟩ := hok.length_le h
    have hlt63 := hok.count_lt
    rw [flatMap_cons, length_append] at hext
    obtain ⟨f, rfl⟩ : ∃ f, fuel = f + 1 := ⟨fuel - 1, by simp at hfuel; omega⟩
    rw [head?_cons, Option.map_some, delRangeLoop_succ hok h hzero]
    -- what is left is deleted from the nodes behind
    have rest {ql1 : Quicklist E} {pre1 : List (QuicklistNode E)} {k : Nat} (hok1 : ql1.Ok)
        (h1 : ql1.nodes = pre1 ++ post) (hk : k ≤ (post.flatMap (·.zl)).length) :
        ∃ ql', delRangeLoop shrinks f ql1 (post.head?.map (·.id)) 0 k = .ok ql' ∧ ql'.Ok ∧
          ql'.elements = pre1.flatMap (·.zl) ++ (post.flatMap (·.zl)).drop k := by
      by_cases hk0 : k = 0
      · subst hk0
        exact ⟨ql1, delRangeLoop_zero _, hok1, by simp [elements, h1]⟩
      · exact ih hok1 h1 hk (by simp at hfuel; omega) hk0
    by_cases hle : extent ≥ n.count
    · have hdel : delCount n.count 0 extent = n.count := by simp [delCount, hle]
      obtain ⟨fl, heq⟩ := @delNode_exact _ shrinks _ _ _ _ hok h
      rw [if_pos ⟨rfl, hle⟩, heq, ok_bind, hdel, sub64_of_le hle (by omega)]
      obtain ⟨ql', hloop, hok', helems⟩ := rest (hok.remove h) rfl (k := extent - n.count) (by omega)
      refine ⟨ql', hloop, hok', ?_⟩
      have hnil : n.zl.drop extent = [] := drop_eq_nil_of_le (by omega)
      rw [helems, flatMap_cons, drop_append, hnil, hc, nil_append]
    have hdel : delCount n.count 0 extent = extent := by simp [delCount, hle]
    have ho : ziplistIndex n.zl 0 = some 0 := ziplistIndex_eq_some.2 (by omega)
    obtain ⟨ql1, pre1, heq, hok1, h1, helems1⟩ := @delFromNode_exact _ shrinks _ _ _ _ _ _ extent
      extent hok h ho (by omega)
    rw [if_neg (by simp [hle]), hdel, heq, ok_bind, sub64_of_le (Nat.le_refl _) (by omega),
      Nat.sub_self]
    obtain ⟨ql', hloop, hok', helems⟩ := rest hok1 h1 (k := 0) (Nat.zero_le _)
    refine ⟨ql', hloop, hok', ?_⟩
    rw [helems, helems1, flatMap_cons, drop_append]
    simp [show extent - n.zl.length = 0 by omega]

theorem delRangeLoop_first (hok : ql.Ok) (h : ql.nodes = pre ++ n :: post)
    (ho : ziplistIndex n.zl offset = some o)
    (hdel : delCount n.count offset extent = min extent (n.count - o))
    (hext : extent ≤ n.count - o + (post.flatMap (·.zl)).length) (hfuel : post.length < fuel) :
    ∃ ql', delRangeLoop shrinks fuel ql (some n.id) offset extent = .ok ql' ∧ ql'.Ok ∧
      ql'.elements = ql.elements.take ((pre.flatMap (·.zl)).length + o) ++
        ql.elements.drop ((pre.flatMap (·.zl)).length + o + extent) := by
  obtain ⟨hc, hlt, hcount, hsum⟩ := hok.length_le h
  have hlt63 := hok.count_lt
  have holt := (ziplistIndex_eq_some.1 ho).1
  have hgoal : ql.elements.take ((pre.flatMap (·.zl)).length + o) ++
      ql.elements.drop ((pre.flatMap (·.zl)).length + o + extent) =
      pre.flatMap (·.zl) ++ (n.zl.take o ++ (n.zl.drop (o + extent) ++
        (post.flatMap (·.zl)).drop (extent - (n.count - o)))) := by
    rw [elements_eq h, append_assoc, add_assoc, take_length_add_append,
      drop_length_add_append, take_append_of_le_length (by omega), drop_append,
      append_assoc, show o + extent - n.zl.length = extent - (n.count - o) by omega]
  rw [hgoal]
  by_cases hzero : extent = 0
  · subst hzero
    refine ⟨ql, delRangeLoop_zero _, hok, ?_⟩
    rw [elements_eq h, Nat.zero_sub, drop_zero, add_zero, ← append_assoc (n.zl.take o),
      take_append_drop, append_assoc]
  by_cases hall : offset = 0 ∧ extent ≥ n.count
  · obtain ⟨rfl, hle⟩ := hall
    obtain rfl : o = 0 := by simpa using (ziplistIndex_eq_some.1 ho).2
    obtain ⟨ql', hloop, hok', helems⟩ := @delRangeLoop_tail _ shrinks _ _ extent fuel (n :: post) hok h
      (by rw [flatMap_cons, length_append]; omega) (by rw [length_cons]; omega)
    refine ⟨ql', hloop, hok', ?_⟩
    rw [helems, flatMap_cons, drop_append, hc]
    simp
  obtain ⟨f, rfl⟩ : ∃ f, fuel = f + 1 := ⟨fuel - 1, by omega⟩
  obtain ⟨ql1, pre1, heq, hok1, h1, helems1⟩ := @delFromNode_exact _ shrinks _ _ _ _ _ _ _ extent hok
    h ho hdel
  obtain ⟨ql', hloop, hok', helems⟩ := @delRangeLoop_tail _ shrinks _ _ (extent - (n.count - o)) f _
    hok1 h1 (by omega) (by omega)
  refine ⟨ql', ?_, hok', ?_⟩
  · rw [delRangeLoop_succ hok h hzero, if_neg hall, heq, ok_bind, hdel,
      sub64_of_le (min_le_left ..) (by omega),
      show extent - min extent (n.count - o) = extent - (n.count - o) by omega]
    exact hloop
  rw [helems, helems1]
  simp

theorem findNode_spec (hc : ∀ n ∈ ns, n.count = n.zl.length)
    {index accum : Nat} (hle : accum ≤ index) (hlt : index < accum + (ns.flatMap (·.zl)).length) :
    ∃ pre n post, ns = pre ++ n :: post ∧
      findNode index ns accum = some (n, accum + (pre.flatMap (·.zl)).length) ∧
      accum + (pre.flatMap (·.zl)).length ≤ index ∧
      index < accum + (pre.flatMap (·.zl)).length + n.zl.length := by
  induction ns generalizing accum with
  | nil =>
    simp at hlt
    omega
  | cons n ns ih =>
    have hn := hc n (mem_cons_self ..)
    unfold findNode
    by_cases hfound : accum + n.count > index
    · refine ⟨[], n, ns, rfl, by simp [hfound], by simpa using hle, ?_⟩
      simp
      omega
    rw [flatMap_cons, length_append] at hlt
    obtain ⟨pre, m, post, rfl, hfind, h1, h2⟩ := @ih (fun m hm => hc m (mem_cons_of_mem _ hm))
      (accum + n.count) (by omega) (by omega)
    refine ⟨n :: pre, m, post, rfl, ?_, ?_, ?_⟩
    · rw [if_neg hfound, hfind, flatMap_cons, length_append, ← hn, add_assoc]
    · rw [flatMap_cons, length_append]
      omega
    rw [flatMap_cons, length_append]
    omega

theorem quicklistIndex_of_find (hok : ql.Ok) {idx : Int} (hidx : idx ≠ -2 ^ 63) {index accum : Nat}
    (hindex : index = if idx < 0 then (-idx - 1).toNat else idx.toNat) (hlt : index < ql.count)
    (hfind : findNode index (if idx < 0 then ql.nodes.reverse else ql.nodes) 0 = some (n, accum))
    (h : ql.nodes = pre ++ n :: post) :
    ∃ fl entry, ql.quicklistIndex idx = .ok (some ({ ql with flags := fl }, entry)) ∧
      entry.node = n.id ∧
      entry.offset = if idx < 0 then -(index : Int) - 1 + accum else (index : Int) - accum := by
  have hzl := ziplist_decompressNodeForUse hok.nodup h
  obtain ⟨fl, hfl⟩ := ql.sameBut_decompressNodeForUse n.id
  rw [hfl] at hzl
  refine ⟨fl, ⟨n.id, ziplistIndex n.zl (if idx < 0 then -(index : Int) - 1 + accum else index - accum),
    (ziplistIndex n.zl (if idx < 0 then -(index : Int) - 1 + accum else index - accum)).bind (n.zl[·]?),
    if idx < 0 then -(index : Int) - 1 + accum else index - accum⟩, ?_, rfl, rfl⟩
  unfold quicklistIndex
  by_cases hlow : idx < 0
  · simp only [if_pos hlow] at hindex hfind ⊢
    simp only [negLong_eq hidx, ok_bind, pure_eq_ok, ← hindex, if_neg (not_le.2 hlt), hfind, hfl, hzl]
  simp only [if_neg hlow] at hindex hfind ⊢
  simp only [ok_bind, pure_eq_ok, ← hindex, if_neg (not_le.2 hlt), hfind, hfl, hzl]

theorem length_flatMap_reverse (l : List (QuicklistNode E)) :
    (l.reverse.flatMap (·.zl)).length = (l.flatMap (·.zl)).length := by
  simp

/-- `quicklistIndex` finds the node of an element. The offset is the place of the element in its node,
counted from the same end as the index. -/
theorem quicklistIndex_ok (hok : ql.Ok) (hidx : idx ≠ -2 ^ 63)
    (hp : ziplistIndex ql.elements idx = some p) :
    ∃ fl entry pre n post o, ql.quicklistIndex idx = .ok (some ({ ql with flags := fl }, entry)) ∧
      ql.nodes = pre ++ n :: post ∧ entry.node = n.id ∧ ziplistIndex n.zl entry.offset = some o ∧
      p = (pre.flatMap (·.zl)).length + o ∧
      (idx < 0 → entry.offset = -(n.count - o : Nat)) ∧
      (0 ≤ idx → entry.offset = o ∧
        findNode idx.toNat ql.nodes 0 = some (n, (pre.flatMap (·.zl)).length)) := by
  have hcount := hok.count_eq
  rw [ziplistIndex_eq_some] at hp
  by_cases hneg : idx < 0
  · -- the loop goes over the nodes from the tail
    obtain ⟨suf, n, init, hsplit, hfind, h1, h2⟩ := @findNode_spec _ ql.nodes.reverse
      (fun m hm => (hok.node_count m (mem_reverse.1 hm)).1) ((-idx - 1).toNat) 0 (Nat.zero_le _)
      (by rw [length_flatMap_reverse]; unfold elements at hp; omega)
    have hnodes : ql.nodes = init.reverse ++ n :: suf.reverse := by
      rw [← reverse_reverse ql.nodes, hsplit]
      simp
    obtain ⟨hc, -, -, hsum⟩ := hok.length_le hnodes
    rw [length_flatMap_reverse suf] at hsum
    rw [Nat.zero_add] at hfind h1 h2
    obtain ⟨fl, entry, heq, hnode, hoff⟩ := @quicklistIndex_of_find _ _ _ _ _ hok _ hidx
      ((-idx - 1).toNat) _ (by rw [if_pos hneg]) (by omega) (by rw [if_pos hneg]; exact hfind) hnodes
    rw [if_pos hneg] at hoff
    refine ⟨fl, entry, init.reverse, n, suf.reverse,
      (suf.flatMap (·.zl)).length + n.zl.length - (-idx).toNat, heq, hnodes, hnode, ?_, by omega, ?_,
      by omega⟩
    · rw [ziplistIndex_eq_some]
      omega
    intro _
    omega
  obtain ⟨pre, n, post, hnodes, hfind, h1, h2⟩ := @findNode_spec _ ql.nodes
    (fun m hm => (hok.node_count m hm).1) idx.toNat 0 (Nat.zero_le _) (by unfold elements at hp; omega)
  rw [Nat.zero_add] at hfind h1 h2
  obtain ⟨fl, entry, heq, hnode, hoff⟩ := @quicklistIndex_of_find _ _ _ _ _ hok _ hidx idx.toNat _
    (by rw [if_neg hneg]) (by omega) (by rw [if_neg hneg]; exact hfind) hnodes
  rw [if_neg hneg] at hoff
  refine ⟨fl, entry, pre, n, post, idx.toNat - (pre.flatMap (·.zl)).length, heq, hnodes, hnode, ?_,
    by omega, by omega, fun _ => ⟨by omega, hfind⟩⟩
  rw [ziplistIndex_eq_some]
  omega

theorem quicklistIndex_none (hok : ql.Ok) {idx : Int} (hidx : idx ≠ -2 ^ 63)
    (hp : ziplistIndex ql.elements idx = none) : ql.quicklistIndex idx = .ok none := by
  have hcount := hok.count_eq
  rw [ziplistIndex_eq_none] at hp
  unfold quicklistIndex
  by_cases hneg : idx < 0
  · simp only [if_pos hneg, negLong_eq hidx, ok_bind, pure_eq_ok,
      if_pos (show (-idx - 1).toNat ≥ ql.count by omega)]
  · simp only [if_neg hneg, ok_bind, pure_eq_ok, if_pos (show idx.toNat ≥ ql.count by omega)]

theorem findNode_lt (hc : ∀ n ∈ ns, n.count = n.zl.length)
    {index accum a : Nat} (h : findNode index ns accum = some (n, a)) :
    index < accum + (ns.flatMap (·.zl)).length := by
  induction ns generalizing accum with
  | nil => cases h
  | cons m ns ih =>
    have hm := hc m (mem_cons_self ..)
    rw [flatMap_cons, length_append]
    unfold findNode at h
    split at h
    · omega
    have := ih (fun n hn => hc n (mem_cons_of_mem _ hn)) h
    omega

theorem quicklistDelRange_some (hok : ql.Ok) {start count : Int} {p : Nat} {fl entry}
    (hstart : start ≠ -2 ^ 63 ∧ start < 2 ^ 63) (hcount : 0 < count)
    (hp : ziplistIndex ql.elements start = some p)
    (hindex : ql.quicklistIndex start = .ok (some ({ ql with flags := fl }, entry))) :
    ql.quicklistDelRange shrinks start count = (do
      let ql ← delRangeLoop shrinks (ql.nodes.length + 1) { ql with flags := fl } (some entry.node)
        entry.offset (min count.toNat (ql.count - p))
      return (ql, true)) := by
  have hlt := hok.count_lt
  have hlen := hok.count_eq
  rw [ziplistIndex_eq_some] at hp
  unfold quicklistDelRange
  rw [if_neg (by omega)]
  by_cases hneg : start < 0
  · have hext : (if count.toNat > (-start).toNat then (-start).toNat else count.toNat) =
        min count.toNat (ql.count - p) := by
      split <;> omega
    rw [if_neg (show ¬start ≥ 0 by omega), negLong_eq hstart.1, ok_bind, hext, pure_eq_ok, ok_bind, hindex]
    beta_reduce
    rw [ok_bind]
  have hext : (if count.toNat > sub64 ql.count start.toNat then sub64 ql.count start.toNat
      else count.toNat) = min count.toNat (ql.count - p) := by
    rw [sub64_of_le (by omega) (by omega)]
    split <;> omega
  rw [if_pos (show start ≥ 0 by omega), hext, pure_eq_ok, ok_bind, hindex]
  beta_reduce
  rw [ok_bind]

theorem quicklistDelRange_none {start count : Int} (hstart : start ≠ -2 ^ 63) (hcount : 0 < count)
    (hindex : ql.quicklistIndex start = .ok none) :
    ql.quicklistDelRange shrinks start count = .ok (ql, false) := by
  unfold quicklistDelRange
  rw [if_neg (by omega)]
  by_cases hneg : start < 0
  · rw [if_neg (show ¬start ≥ 0 by omega), negLong_eq hstart, ok_bind, pure_eq_ok, ok_bind, hindex]
    rfl
  rw [if_pos (show start ≥ 0 by omega), pure_eq_ok, ok_bind, hindex]
  rfl

theorem delRange_of_delCount (hok : ql.Ok) {start count : Int} {p : Nat} {fl : Nat → NodeFlags}
    {entry : QuicklistEntry E} (hcount : 0 < count) (hp : ziplistIndex ql.elements start = some p)
    (h : ql.nodes = pre ++ n :: post) (hnode : entry.node = n.id)
    (ho : ziplistIndex n.zl entry.offset = some o) (hpos : p = (pre.flatMap (·.zl)).length + o)
    (hdel : delCount n.count entry.offset (min count.toNat (ql.count - p)) =
      min (min count.toNat (ql.count - p)) (n.count - o)) :
    ∃ ql', delRangeLoop shrinks (ql.nodes.length + 1) { ql with flags := fl } (some entry.node)
        entry.offset (min count.toNat (ql.count - p)) = .ok ql' ∧
      (ql'.elements, true) = rangeDeleted ql.elements start count ∧ ql'.Ok := by
  have hok' : Ok { ql with flags := fl } := ⟨hok.1, hok.2, hok.3, hok.4, hok.5, hok.6⟩
  obtain ⟨hc, -, -, hsum⟩ := hok.length_le h
  have hlen := hok.count_eq
  obtain ⟨ql', hloop, hok1, helems⟩ := @delRangeLoop_first _ shrinks _ _ _ _ _ _ _ (ql.nodes.length + 1)
    hok' h ho hdel (by omega) (by rw [h]; simp; omega)
  refine ⟨ql', by rw [hnode]; exact hloop, ?_, hok1⟩
  have hdrop : ql.elements.drop (p + min count.toNat (ql.count - p)) =
      ql.elements.drop (p + count.toNat) := by
    rcases le_total count.toNat (ql.count - p) with hle | hle
    · rw [min_eq_left hle]
    · rw [min_eq_right hle, drop_eq_nil_of_le (by omega), drop_eq_nil_of_le (by omega)]
  rw [← hpos] at helems
  have helems : ql'.elements = ql.elements.take p ++
      ql.elements.drop (p + min count.toNat (ql.count - p)) := helems
  unfold rangeDeleted
  rw [if_neg (by omega), hp, helems, hdrop]

/-- A range that starts inside of a node, is shorter than the node and ends behind it: the count of
the node is then wrong. -/
theorem not_ok_of_overrun (hok : ql.Ok) (h : ql.nodes = pre ++ n :: post) (ho : 0 < o)
    (holt : o < n.count) (hext : extent < n.count) (hover : n.count < o + extent) {ql'}
    (hloop : delRangeLoop shrinks (fuel + 1) ql (some n.id) o extent = .ok ql') : ¬ql'.Ok := by
  obtain ⟨hc, h16, -, -⟩ := hok.length_le h
  have hdel : delCount n.count o extent = extent := by
    unfold delCount
    rw [if_neg (by omega), if_neg (by omega), if_neg (by omega)]
  obtain ⟨fl, heq⟩ := @delFromNode_ok _ shrinks _ _ _ _ o extent hok h (by omega)
  rw [if_neg (by omega)] at heq
  rw [delRangeLoop_succ hok h (by omega), if_neg (by omega), hdel, heq, ok_bind,
    sub64_of_le (Nat.le_refl _) (by omega), Nat.sub_self] at hloop
  beta_reduce at hloop
  rw [delRangeLoop_zero] at hloop
  cases hloop
  intro hbad
  have := (hbad.node_count ⟨n.id, n.count - extent, ziplistDeleteRange n.zl o extent⟩ (by simp)).1
  have hindex : ziplistIndex n.zl o = some o := ziplistIndex_eq_some.2 (by omega)
  simp only [ziplistDeleteRange, hindex, length_append, length_take, length_drop] at this
  omega

/-- `quicklistDelRange` deletes the range and keeps the counters right exactly if the range does not
leave its first node in the middle. A range that is counted from the tail does not, and the lowest
number has no negation. -/
theorem delRange_exact_iff (hok : ql.Ok) {start count : Int} (hstart : -2 ^ 63 ≤ start ∧ start < 2 ^ 63) :
    (∃ ql' r, ql.quicklistDelRange shrinks start count = .ok (ql', r) ∧
        (ql'.elements, r) = rangeDeleted ql.elements start count ∧ ql'.Ok) ↔
      count ≤ 0 ∨ (start < 0 ∧ start ≠ -2 ^ 63) ∨
        (0 ≤ start ∧ ql.FitsFirstNode start.toNat count.toNat) := by
  by_cases hcount : count ≤ 0
  · refine iff_of_true ⟨ql, false, ?_, ?_, hok⟩ (.inl hcount)
    · unfold quicklistDelRange
      rw [if_pos hcount]
      rfl
    unfold rangeDeleted
    rw [if_pos hcount]
  by_cases hmin : start = -2 ^ 63
  · refine iff_of_false ?_ (by omega)
    rintro ⟨ql', r, heq, -⟩
    unfold quicklistDelRange at heq
    rw [if_neg hcount, if_neg (by omega), negLong, if_pos hmin] at heq
    cases heq
  rcases hp : ziplistIndex ql.elements start with _ | p
  · refine iff_of_true ⟨ql, false, ?_, ?_, hok⟩ ?_
    · exact quicklistDelRange_none hmin (by omega) (quicklistIndex_none hok hmin hp)
    · unfold rangeDeleted
      rw [if_neg hcount, hp]
    rcases Int.lt_or_le start 0 with hneg | hneg
    · exact .inr (.inl ⟨hneg, hmin⟩)
    refine .inr (.inr ⟨hneg, ?_⟩)
    intro n accum hfind
    have hlt := findNode_lt (fun m hm => (hok.node_count m hm).1) hfind
    rw [ziplistIndex_eq_none] at hp
    unfold elements at hp
    omega
  obtain ⟨fl, entry, pre, n, post, o, hindex, hnodes, hnode, ho, hpos, hlow, hhigh⟩ :=
    quicklistIndex_ok hok hmin hp
  have hrun := @quicklistDelRange_some _ shrinks _ hok _ count _ _ _ ⟨hmin, hstart.2⟩ (by omega) hp
    hindex
  have hok' : Ok { ql with flags := fl } := ⟨hok.1, hok.2, hok.3, hok.4, hok.5, hok.6⟩
  obtain ⟨hc, -, -, hsum⟩ := hok.length_le hnodes
  have holt := (ziplistIndex_eq_some.1 ho).1
  -- where the first step is right, so is the result
  have right (hdel : delCount n.count entry.offset (min count.toNat (ql.count - p)) =
      min (min count.toNat (ql.count - p)) (n.count - o)) :
      ∃ ql' r, ql.quicklistDelRange shrinks start count = .ok (ql', r) ∧
        (ql'.elements, r) = rangeDeleted ql.elements start count ∧ ql'.Ok := by
    obtain ⟨ql', hloop, helems, hok1⟩ := @delRange_of_delCount _ shrinks _ _ _ _ _ hok _ _ _ fl _
      (by omega) hp hnodes hnode ho hpos hdel
    exact ⟨ql', true, by rw [hrun, hloop]; rfl, helems, hok1⟩
  rcases Int.lt_or_le start 0 with hneg | hneg
  · refine iff_of_true (right ?_) (.inr (.inl ⟨hneg, hmin⟩))
    rw [hlow hneg]
    unfold delCount
    rw [if_neg (by omega), if_neg (by omega), if_pos (by omega)]
    split <;> omega
  obtain ⟨hoff, hfind⟩ := hhigh hneg
  have hp' : start.toNat = p := by
    rw [ziplistIndex_eq_some] at hp
    omega
  have hfits : ql.FitsFirstNode start.toNat count.toNat ↔ o = 0 ∨
      n.count ≤ min count.toNat (ql.count - p) ∨ o + min count.toNat (ql.count - p) ≤ n.count := by
    unfold FitsFirstNode
    rw [hp'] at hfind ⊢
    constructor
    · intro h
      have := h n _ hfind
      omega
    intro h m accum hm
    rw [hfind] at hm
    cases hm
    omega
  constructor
  · rintro ⟨ql', r, heq, -, hbad⟩
    refine .inr (.inr ⟨hneg, hfits.2 ?_⟩)
    by_contra hno
    rw [hrun, hnode, hoff] at heq
    obtain ⟨ql1, hloop, hret⟩ := bind_eq_ok.1 heq
    cases hret
    exact not_ok_of_overrun hok' hnodes (by omega) (by omega) (by omega) (by omega) hloop hbad
  intro h
  have h : o = 0 ∨ n.count ≤ min count.toNat (ql.count - p) ∨
      o + min count.toNat (ql.count - p) ≤ n.count := by
    rcases h with h | h | h
    · exact absurd h hcount
    · omega
    · exact hfits.1 h.2
  refine right ?_
  rw [hoff]
  unfold delCount
  split
  · omega
  split
  · simp
    omega
  rw [if_neg (by omega)]
  omega

end

def threeTwo : Quicklist Nat :=
  ⟨[⟨1, 3, [10, 11, 12]⟩, ⟨2, 2, [13, 14]⟩], 5, 2, 0, fun _ => ⟨false, false⟩⟩

theorem threeTwo_ok : threeTwo.Ok := by
  refine ⟨by decide, ?_, rfl, by decide, rfl, by decide⟩
  simp [threeTwo]

/-- The last three elements, counted from the tail. -/
theorem delRange_exact_iff_tail :
    ∃ ql' r, threeTwo.quicklistDelRange (fun _ => true) (-3) 3 = .ok (ql', r) ∧
      (ql'.elements, r) = rangeDeleted threeTwo.elements (-3) 3 ∧ ql'.Ok :=
  (delRange_exact_iff threeTwo_ok (by decide)).2 (.inr (.inl (by decide)))

/-- Two elements from the last one of the first node on: one of them is deleted, and the counters are
one less than the numbers of elements. -/
theorem delRange_overruns :
    (threeTwo.quicklistDelRange (fun _ => true) 2 2).map (fun p => (p.1.nodes, p.1.count, p.2)) =
        .ok ([⟨1, 1, [10, 11]⟩, ⟨2, 2, [13, 14]⟩], 3, true) ∧
      rangeDeleted threeTwo.elements 2 2 = ([10, 11, 14], true) := by
  decide +kernel

end Quicklist

end UfsRedis
