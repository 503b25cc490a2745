import UfsRedis.Ufs.EdgeLists
import UfsRedis.Ufs.SetOps

/-!
# The lists of edges follow the graph

* `Shape m L`: the edges of `m` are the linked lists `L`, with the addresses of their edges, and no
  edge is in two of them;
* `Rep m g`: the graph `g` of `UfsRedis.Ufs.Graph` has the lists of `m`;
* `Rep.createLinks`, `Rep.removeAdjEdge`: the loops return, and do to the lists what the folds and
  filters of `UfsRedis.Ufs.Graph` say. A loop of `createLinks` follows the edges that were there when
  it began, since `createEdge` only adds edges before them (`walk_eq`); in a loop of `removeAdjEdge`
  the pointer `q` is the edge before `p` whenever it is used (`removeLoop_eq`).
-/

namespace UfsRedis

open List Lib Function

namespace MemGraph

abbrev edgeCells (l : List (Nat × Nat)) : List (Nat × Edge) := cells Edge.mk l none

def allCells (n : Nat) (L : Nat → List (Nat × Nat)) : List (Nat × Edge) :=
  (List.range n).flatMap fun v => edgeCells (L v)

/-- The lists of `m` are `L`: for each vertex the addresses and the `adjvex` of its edges. -/
structure Shape (m : MemGraph) (L : Nat → List (Nat × Nat)) : Prop where
  first : ∀ v x, m.dlist[v]? = some x → x.firstedge = start (L v) none
  holds : m.edges.Holds (allCells m.dlist.length L)

def graphOf (m : MemGraph) (L : Nat → List (Nat × Nat)) : CudGraph where
  key := m.key
  edgenum := m.edgenum
  dlist := m.dlist.mapIdx fun v x => ⟨x.data, (L v).map Prod.snd⟩

/-- `g` has the lists of `m`. -/
def Rep (m : MemGraph) (g : CudGraph) : Prop := ∃ L, Shape m L ∧ graphOf m L = g

variable {m : MemGraph} {L : Nat → List (Nat × Nat)} {l : List (Nat × Nat)} {g : CudGraph}

section

variable {v n : Nat}

@[simp] theorem length_graphOf : (graphOf m L).dlist.length = m.dlist.length := by simp [graphOf]

theorem adj_graphOf (hv : v < m.dlist.length) : (graphOf m L).adj v = (L v).map Prod.snd := by
  simp [graphOf, CudGraph.adj, getElem?_eq_getElem hv]

theorem name_graphOf (v : Nat) : (graphOf m L).name v = m.name v := by
  rw [CudGraph.name, MemGraph.name, graphOf, getElem?_mapIdx]
  cases m.dlist[v]? <;> rfl

theorem locateVex_graphOf (e : Sds) : UfsRedis.locateVex (graphOf m L) e = m.locateVex e := by
  rw [UfsRedis.locateVex, MemGraph.locateVex, graphOf]
  have hmap : ∀ (xs : List MemVertex) (f : Nat → MemVertex → Vertex), (∀ v x, (f v x).data = x.data) →
      (xs.mapIdx f).findIdx? (·.data = e) = xs.findIdx? (·.data = e) := by
    intro xs
    induction xs with
    | nil => intro f _; rfl
    | cons x xs ih =>
      intro f hf
      rw [mapIdx_cons, findIdx?_cons, findIdx?_cons, hf, ih _ fun v x => hf _ x]
  exact hmap _ _ fun _ _ => rfl

theorem allCells_perm (hv : v < n) : (allCells n L).Perm
    (edgeCells (L v) ++ ((range n).erase v).flatMap fun w => edgeCells (L w)) := by
  have := (perm_cons_erase (mem_range.mpr hv)).flatMap_right fun w => edgeCells (L w)
  simpa [allCells] using this

theorem allCells_update_perm (hv : v < n) : (allCells n (update L v l)).Perm
    (edgeCells l ++ ((range n).erase v).flatMap fun w => edgeCells (L w)) := by
  refine (allCells_perm hv).trans ?_
  rw [update_self]
  refine .append_left _ (.of_eq ?_)
  refine flatMap_congr fun w hw => ?_
  rw [update_of_ne]
  rintro rfl
  exact nodup_range.not_mem_erase hw

section

variable (h : Shape m L) (hv : v < m.dlist.length)
include h hv

theorem Shape.firstedge : m.firstedge v = .ok (start (L v) none) := by
  rw [MemGraph.firstedge, getElem?_eq_getElem hv]
  exact congrArg _ (h.first v _ (getElem?_eq_getElem hv))

theorem Shape.reads : ∀ e ∈ edgeCells (L v), m.edges.get e.1 = some e.2 := fun e he =>
  h.holds.block e ((allCells_perm hv).mem_iff.mpr (mem_append_left _ he))

theorem Shape.length_lt : (L v).length < m.turns := by
  have hlen := (h.holds.perm (allCells_perm hv)).length_le
  have hcells : (edgeCells (L v)).length = (L v).length := by
    have hfst : (edgeCells (L v)).map Prod.fst = (L v).map Prod.fst := map_fst_cells
    simpa using congrArg length hfst
  rw [length_append, hcells] at hlen
  rw [turns]
  omega

end

/-- The edges of the lists other than that of `v`. -/
abbrev otherCells (n v : Nat) (L : Nat → List (Nat × Nat)) : List (Nat × Edge) :=
  ((List.range n).erase v).flatMap fun w => edgeCells (L w)

theorem Shape.update (h : Shape m L) (hv : v < m.dlist.length)
    (hd : m'.dlist = m.dlist.modify v fun x => { x with firstedge := start l none })
    (hh : m'.edges.Holds (edgeCells l ++ otherCells m.dlist.length v L)) :
    Shape m' (update L v l) := by
  refine ⟨fun w x hx => ?_, ?_⟩
  · rw [hd, getElem?_modify] at hx
    by_cases hw : v = w
    · subst hw
      simp only [getElem?_eq_getElem hv, if_true] at hx
      cases hx
      rw [update_self]
    rw [update_of_ne (Ne.symm hw)]
    refine h.first w x ?_
    simpa [hw] using hx
  rw [hd, length_modify]
  exact hh.perm (allCells_update_perm hv).symm

theorem graphOf_update (hkey : m'.key = m.key)
    (hd : m'.dlist = m.dlist.modify v fun x => { x with firstedge := start l none }) :
    graphOf m' (update L v l) = ⟨m.key, m'.edgenum,
      (graphOf m L).dlist.modify v fun x => { x with firstedge := l.map Prod.snd }⟩ := by
  simp only [graphOf, hkey, hd, CudGraph.mk.injEq, true_and]
  refine ext_getElem? fun w => ?_
  rw [getElem?_mapIdx, getElem?_modify, getElem?_modify, getElem?_mapIdx]
  by_cases hw : v = w
  · subst hw
    cases m.dlist[v]? <;> simp
  · cases m.dlist[w]? <;> simp [hw, update_of_ne (Ne.symm hw)]

end

/-! ## Adding edges -/

section

variable {v v1 v2 w n i j : Nat}

theorem existLoop_eq (hl : ∀ e ∈ edgeCells l, m.edges.get e.1 = some e.2) (hn : l.length < n) :
    existLoop m w n (start l none) = .ok (decide (w ∈ l.map Prod.snd)) := by
  induction l generalizing n with
  | nil =>
    obtain _ | n := n
    · simp at hn
    rfl
  | cons e l ih =>
    obtain ⟨a, x⟩ := e
    obtain _ | n := n
    · simp at hn
    have hget : m.edges.get a = some ⟨x, start l none⟩ := hl (a, _) mem_cons_self
    have hrest := ih (n := n) (fun e he => hl e (mem_cons_of_mem _ he)) (by simpa using hn)
    rw [start, existLoop, MemGraph.edge, hget, deref_some, ok_bind]
    by_cases hx : x = w
    · simp [hx]
    rw [if_neg hx, hrest]
    simp [Ne.symm hx]

theorem Rep.existEdge (h : Rep m g) (hv : v1 < g.dlist.length) :
    m.existEdge v1 v2 = .ok (UfsRedis.existEdge g v1 v2) := by
  obtain ⟨L, h, rfl⟩ := h
  rw [length_graphOf] at hv
  rw [MemGraph.existEdge, h.firstedge hv, ok_bind, existLoop_eq (h.reads hv) (h.length_lt hv),
    UfsRedis.existEdge, adj_graphOf hv]

theorem Rep.prependEdge (h : Rep m g) (hv : v1 < g.dlist.length) :
    ∃ m', m.prependEdge v1 v2 = .ok m' ∧ Rep m' (addEdge g v1 v2) ∧ m.edges.Grows m'.edges := by
  obtain ⟨L, h, rfl⟩ := h
  rw [length_graphOf] at hv
  rw [MemGraph.prependEdge, h.firstedge hv, ok_bind]
  refine ⟨_, rfl, ⟨update L v1 ((m.edges.next, v2) :: L v1), ?_, ?_⟩, Heap.grows_alloc _ _⟩
  · exact h.update hv rfl (h.holds.perm (allCells_perm hv)).alloc
  refine Eq.trans (graphOf_update (m := m) ?_ ?_) ?_
  · rfl
  · rfl
  rw [addEdge, CudGraph.mk.injEq]
  refine ⟨rfl, rfl, ext_getElem? fun w => ?_⟩
  rw [getElem?_modify, getElem?_modify]
  by_cases hw : v1 = w
  · subst hw
    simp [graphOf, getElem?_eq_getElem hv]
  · simp [hw]

theorem length_addEdge (g : CudGraph) (v1 v2 : Nat) :
    (addEdge g v1 v2).dlist.length = g.dlist.length := by simp [addEdge]

theorem Rep.addMissing (h : Rep m g) (hv : v1 < g.dlist.length) (v2 : Nat) :
    ∃ m', m.addMissing v1 v2 = .ok m' ∧
      Rep m' (if UfsRedis.existEdge g v1 v2 then g else addEdge g v1 v2) ∧
      m.edges.Grows m'.edges := by
  rw [MemGraph.addMissing, h.existEdge hv, ok_bind]
  split
  · exact ⟨m, rfl, h, .refl _⟩
  · exact h.prependEdge hv

theorem Rep.createEdge (h : Rep m g) (h1 : v1 < g.dlist.length) (h2 : v2 < g.dlist.length) :
    ∃ m', m.createEdge v1 v2 = .ok m' ∧ Rep m' (UfsRedis.createEdge g v1 v2) ∧
      m.edges.Grows m'.edges := by
  rw [MemGraph.createEdge, UfsRedis.createEdge]
  by_cases heq : v1 = v2
  · exact ⟨m, by rw [if_pos heq], by rw [if_pos (.inl heq)]; exact h, .refl _⟩
  rw [if_neg heq, h.existEdge h1, ok_bind, h.existEdge h2, ok_bind]
  by_cases hboth : UfsRedis.existEdge g v1 v2 ∧ UfsRedis.existEdge g v2 v1
  · exact ⟨m, by simp [hboth.1, hboth.2], by rw [if_pos (.inr hboth)]; exact h, .refl _⟩
  rw [if_neg (by simpa using hboth), if_neg (not_or.mpr ⟨heq, hboth⟩)]
  obtain ⟨m1, hm1, hrep1, hgrow1⟩ := h.addMissing h1 v2
  have hlen : v2 < (if UfsRedis.existEdge g v1 v2 then g else addEdge g v1 v2).dlist.length := by
    split
    · exact h2
    · rwa [length_addEdge]
  obtain ⟨m2, hm2, hrep2, hgrow2⟩ := hrep1.addMissing hlen v1
  exact ⟨m2, by rw [hm1, ok_bind, hm2], hrep2, hgrow1.trans hgrow2⟩

/-- **The loops of `createLinks`.** If the body only adds edges, the loop goes over the list as it
was when the loop began. -/
theorem walk_eq {body : MemGraph → Nat → Except Fault MemGraph} {f : CudGraph → Nat → CudGraph}
    {P : CudGraph → Prop} (hl : ∀ e ∈ edgeCells l, m.edges.get e.1 = some e.2) (hn : l.length < n)
    (hbody : ∀ m g, ∀ a ∈ l.map Prod.snd, Rep m g → P g →
      ∃ m', body m a = .ok m' ∧ Rep m' (f g a) ∧ P (f g a) ∧ m.edges.Grows m'.edges)
    (h : Rep m g) (hP : P g) :
    ∃ m', walk body n (start l none) m = .ok m' ∧ Rep m' ((l.map Prod.snd).foldl f g) ∧
      P ((l.map Prod.snd).foldl f g) ∧ m.edges.Grows m'.edges := by
  induction l generalizing n m g with
  | nil =>
    obtain _ | n := n
    · simp at hn
    exact ⟨m, rfl, h, hP, .refl _⟩
  | cons e l ih =>
    obtain ⟨a, x⟩ := e
    obtain _ | n := n
    · simp at hn
    have hget : m.edges.get a = some ⟨x, start l none⟩ := hl (a, _) mem_cons_self
    obtain ⟨m1, hm1, hrep1, hP1, hgrow1⟩ := hbody m g x (by simp) h hP
    -- the edge at `p` is still there, with the same `nextedge`
    have hget1 := hgrow1.2 a _ hget
    obtain ⟨m2, hm2, hrep2, hP2, hgrow2⟩ := ih
      (fun e he => hgrow1.2 _ _ (hl e (mem_cons_of_mem _ he))) (by simpa using hn)
      (fun m g a ha => hbody m g a (by simp [ha])) hrep1 hP1
    refine ⟨m2, ?_, hrep2, hP2, hgrow1.trans hgrow2⟩
    simp only [start, walk, MemGraph.edge, hget, hget1, deref_some, ok_bind, hm1]
    exact hm2

/-- The edges lead to vertices of the graph, which has `n` of them. -/
def InRange (n : Nat) (g : CudGraph) : Prop :=
  g.dlist.length = n ∧ ∀ u, ∀ w ∈ g.adj u, w < n

theorem inRange_addEdge (h : InRange n g) (h1 : v1 < n) (h2 : v2 < n) :
    InRange n (addEdge g v1 v2) := by
  obtain ⟨rfl, hr⟩ := h
  refine ⟨length_addEdge g v1 v2, fun u w hw => ?_⟩
  rw [adj_addEdge h1] at hw
  split at hw
  · rcases mem_cons.mp hw with rfl | hw
    · exact h2
    · exact hr u w hw
  · exact hr u w hw

theorem inRange_createEdge (h : InRange n g) (h1 : v1 < n) (h2 : v2 < n) :
    InRange n (UfsRedis.createEdge g v1 v2) := by
  have hif : ∀ {g : CudGraph} {a b : Nat}, InRange n g → a < n → b < n →
      InRange n (if UfsRedis.existEdge g a b then g else addEdge g a b) := by
    intro g a b h ha hb
    split
    · exact h
    · exact inRange_addEdge h ha hb
  rw [UfsRedis.createEdge]
  split
  · exact h
  · exact hif (hif h h1 h2) h2 h1

/-- What a step of `createLinks` does: it returns, follows the graph, and leaves the edges where they
are. -/
def Adds (n : Nat) (body : MemGraph → Except Fault MemGraph) (f : CudGraph → CudGraph) : Prop :=
  ∀ m g, Rep m g → InRange n g →
    ∃ m', body m = .ok m' ∧ Rep m' (f g) ∧ InRange n (f g) ∧ m.edges.Grows m'.edges

theorem adds_createEdge (h1 : v1 < n) (h2 : v2 < n) :
    Adds n (fun m => m.createEdge v1 v2) fun g => UfsRedis.createEdge g v1 v2 := by
  intro m g h hr
  obtain ⟨m', hm', hrep, hgrow⟩ := h.createEdge (hr.1.symm ▸ h1) (hr.1.symm ▸ h2)
  exact ⟨m', hm', hrep, inRange_createEdge hr h1 h2, hgrow⟩

theorem Adds.bind
    (h : Adds n b f) (h' : Adds n b' f') : Adds n (fun m => b m >>= b') fun g => f' (f g) := by
  intro m g hrep hr
  obtain ⟨m1, hm1, hrep1, hr1, hgrow1⟩ := h m g hrep hr
  obtain ⟨m2, hm2, hrep2, hr2, hgrow2⟩ := h' m1 _ hrep1 hr1
  exact ⟨m2, (bind_eq_ok.mpr ⟨m1, hm1, hm2⟩), hrep2, hr2, hgrow1.trans hgrow2⟩

theorem Adds.walk {body : Nat → MemGraph → Except Fault MemGraph} {f : Nat → CudGraph → CudGraph}
    (hv : v < n) (hbody : ∀ a < n, Adds n (body a) (f a)) :
    Adds n (fun m => do MemGraph.walk (fun m a => body a m) m.turns (← m.firstedge v) m)
      fun g => (g.adj v).foldl (fun g a => f a g) g := by
  intro m g hrep hr
  obtain ⟨L, h, hL⟩ := hrep
  have hlt : v < m.dlist.length := by
    rw [← length_graphOf (L := L), hL, hr.1]
    exact hv
  have hadj : g.adj v = (L v).map Prod.snd := by rw [← hL, adj_graphOf hlt]
  dsimp only
  rw [h.firstedge hlt, ok_bind, hadj]
  refine walk_eq (h.reads hlt) (h.length_lt hlt) (fun m g a ha hm hg => ?_) ⟨L, h, hL⟩ hr
  exact hbody a (hr.2 v a (hadj ▸ ha)) m g hm hg

theorem adds_linkEdge (hj : j < n) (hp : p < n) (hq : q < n) :
    Adds n (fun m => MemGraph.linkEdge j p m q) fun g => UfsRedis.linkEdge j p g q := by
  have hfirst : Adds n (fun m => if p ≠ j then m.createEdge p j else .ok m)
      fun g => if p ≠ j then UfsRedis.createEdge g p j else g := by
    by_cases hpj : p = j
    · simp only [hpj, ne_eq, not_true, if_false]
      exact fun m g hrep hr => ⟨m, rfl, hrep, hr, .refl _⟩
    simp only [ne_eq, hpj, not_false_iff, if_true]
    exact adds_createEdge hp hj
  exact hfirst.bind (adds_createEdge hp hq)

theorem adds_linkWalk (hi : i < n) (hj : j < n) :
    Adds n (MemGraph.linkWalk i j) (UfsRedis.linkWalk i j) :=
  .walk hi fun _ hp => .walk hj fun _ hq => adds_linkEdge hj hp hq

theorem adds_createLinks (hi : i < n) (hj : j < n) :
    Adds n (fun m => m.createLinks i j) fun g => UfsRedis.createLinks g i j :=
  (adds_createEdge hi hj).bind ((adds_linkWalk hi hj).bind (adds_linkWalk hj hi))

end

/-! ## Removing edges -/

/-- The list of vertex `j` is now `l`, and nothing else has changed. -/
structure Replaced (m : MemGraph) (L : Nat → List (Nat × Nat)) (j : Nat) (l : List (Nat × Nat))
    (m' : MemGraph) : Prop where
  key : m'.key = m.key
  edgenum : m'.edgenum = m.edgenum
  dlist : m'.dlist = m.dlist.modify j fun x => { x with firstedge := start l none }
  shape : Shape m' (Function.update L j l)

section

variable {m m' m'' : MemGraph} {i j n a b w x : Nat} {l pre rest : List (Nat × Nat)}
  {q : Option Nat} {dead : Nat → Bool}

theorem Shape.modify_first (h : Shape m L) (hl : start l none = start (L j) none) :
    m.dlist.modify j (fun x => { x with firstedge := start l none }) = m.dlist := by
  refine ext_getElem? fun v => ?_
  rw [getElem?_modify]
  by_cases hv : j = v
  · subst hv
    rcases hx : m.dlist[j]? with _ | x
    · rfl
    have := h.first j x hx
    rw [← hl] at this
    simp [← this]
  · cases m.dlist[v]? <;> simp [hv]

theorem Replaced.refl (h : Shape m L) : Replaced m L j (L j) m where
  key := rfl
  edgenum := rfl
  dlist := (h.modify_first rfl).symm
  shape := by rwa [update_eq_self]

theorem Replaced.trans (h : Replaced m L j l m')
    (h' : Replaced m' (update L j l) j l' m'') : Replaced m L j l' m'' where
  key := h'.key.trans h.key
  edgenum := h'.edgenum.trans h.edgenum
  dlist := by
    rw [h'.dlist, h.dlist, modify_modify_eq]
    rfl
  shape := by
    have := h'.shape
    rwa [update_idem] at this

theorem Replaced.length (h : Replaced m L j l m') : m'.dlist.length = m.dlist.length := by
  rw [h.dlist, length_modify]

section

variable (h : Shape m L) (hj : j < m.dlist.length)
include h hj

theorem Shape.dropFirst (hL : L j = (a, w) :: rest) :
    Replaced m L j rest { m.setFirstedge j (start rest none) with edges := m.edges.free a } where
  key := rfl
  edgenum := rfl
  dlist := rfl
  shape := by
    have hh := h.holds.perm (allCells_perm hj)
    rw [hL] at hh
    have hcons : m.edges.Holds ((a, ⟨w, start rest none⟩) ::
        (edgeCells rest ++ otherCells m.dlist.length j L)) := hh
    exact h.update hj rfl hcons.free

theorem Shape.dropNext
    (hL : L j = pre ++ (b, x) :: (a, w) :: rest) : Replaced m L j (pre ++ (b, x) :: rest)
      { m with edges := (m.edges.set b ⟨x, start rest none⟩).free a } where
  key := rfl
  edgenum := rfl
  dlist := by
    refine (h.modify_first ?_).symm
    rw [hL, start_append, start_append]
    rfl
  shape := by
    have hh := h.holds.perm (allCells_perm hj)
    rw [hL, edgeCells, cells_append] at hh
    -- the two edges first
    have hfront : ((cells Edge.mk pre (some b) ++ (b, ⟨x, some a⟩) :: (a, ⟨w, start rest none⟩) ::
        edgeCells rest) ++ otherCells m.dlist.length j L).Perm
        ((b, ⟨x, some a⟩) :: (a, ⟨w, start rest none⟩) ::
          (cells Edge.mk pre (some b) ++ edgeCells rest ++ otherCells m.dlist.length j L)) := by
      rw [append_assoc, append_assoc]
      refine perm_middle.trans (.cons _ ?_)
      exact perm_middle
    have hset := ((hh.perm hfront).set (n := ⟨x, start rest none⟩)).perm (.swap _ _ _)
    refine h.update hj ?_ (hset.free.perm ?_)
    · refine (h.modify_first ?_).symm
      rw [hL, start_append, start_append]
      rfl
    have happend : edgeCells (pre ++ (b, x) :: rest) =
        cells Edge.mk pre (some b) ++ (b, ⟨x, start rest none⟩) :: edgeCells rest := cells_append
    rw [happend, append_assoc, append_assoc]
    exact perm_middle.symm

theorem Shape.get_mid (hL : L j = pre ++ (a, w) :: rest) :
    m.edges.get a = some ⟨w, start rest none⟩ := by
  refine h.reads hj (a, ⟨w, start rest none⟩) ?_
  rw [hL, edgeCells, cells_append]
  exact mem_append_right _ mem_cons_self

theorem Shape.start_ne
    (hL : L j = pre ++ (a, w) :: rest) (hpre : pre ≠ []) : start (L j) none ≠ some a := by
  have hnd := (h.holds.perm (allCells_perm hj)).nodup
  rw [map_append, map_fst_cells, hL] at hnd
  have hnd := (nodup_append.mp hnd).1
  obtain ⟨e, pre, rfl⟩ := exists_cons_of_ne_nil hpre
  rw [cons_append, map_cons, nodup_cons] at hnd
  rw [hL]
  intro heq
  refine hnd.1 ?_
  rw [Option.some.inj heq]
  simp

/-- **The loops of `removeAdjEdge`.** At the edges `rest` of the list, the edges `pre` before them
have been kept, and `q` is the last of these. -/
theorem removeLoop_eq (hL : L j = pre ++ rest)
    (hq : ∀ e, pre.getLast? = some e → q = some e.1) (hn : rest.length < n) :
    ∃ m' q', removeLoop j dead n (start rest none) q m = .ok (m', q') ∧
      Replaced m L j (pre ++ rest.filter fun e => !dead e.2) m' := by
  induction rest generalizing pre m L q n with
  | nil =>
    obtain _ | n := n
    · simp at hn
    rw [append_nil] at hL
    exact ⟨m, q, rfl, by rw [filter_nil, append_nil, ← hL]; exact .refl h⟩
  | cons e rest ih =>
    obtain ⟨a, w⟩ := e
    obtain _ | n := n
    · simp at hn
    have hn' : rest.length < n := by simpa using hn
    have hget : m.edges.get a = some ⟨w, start rest none⟩ := h.get_mid hj hL
    have hstart : start ((a, w) :: rest) none = some a := rfl
    rw [hstart, removeLoop, MemGraph.edge, hget, deref_some, ok_bind]
    split
    · rename_i hw
      rw [h.firstedge hj, ok_bind, filter_cons_of_neg (by simp [hw])]
      rcases eq_nil_or_concat pre with rfl | ⟨pre, ⟨b, x⟩, rfl⟩
      · -- the first edge of the list
        have hrep := h.dropFirst hj hL
        have hfirst := hrep.shape.firstedge (v := j) (by rwa [hrep.length])
        rw [update_self] at hfirst
        have hL' : update L j rest j = [] ++ rest := update_self _ _ _
        obtain ⟨m', q', hm', hrep'⟩ := ih (q := q) hrep.shape (by rwa [hrep.length]) hL' (by simp) hn'
        refine ⟨m', q', ?_, hrep.trans hrep'⟩
        rw [if_pos (by rw [hL]; rfl)]
        exact bind_eq_ok.mpr ⟨_, hfirst, hm'⟩
      -- the edge `q` before it is at `b`
      rw [concat_eq_append] at hL hq ⊢
      have hL' : L j = pre ++ (b, x) :: (a, w) :: rest := by rw [hL]; simp
      have hqb : q = some b := hq (b, x) (by simp)
      have hgetb : m.edges.get b = some ⟨x, some a⟩ := h.get_mid hj hL'
      have hrep := h.dropNext hj hL'
      have hnew : update L j (pre ++ (b, x) :: rest) j = pre ++ (b, x) :: rest :=
        update_self _ _ _
      have hnext := hrep.shape.get_mid (by rwa [hrep.length]) hnew
      have hnew' : update L j (pre ++ (b, x) :: rest) j = (pre ++ [(b, x)]) ++ rest := by
        rw [hnew, append_assoc, singleton_append]
      obtain ⟨m', q', hm', hrep'⟩ := ih hrep.shape (by rwa [hrep.length]) hnew' hq hn'
      refine ⟨m', q', ?_, hrep.trans hrep'⟩
      rw [if_neg (h.start_ne hj hL (by simp)), hqb, deref_some, ok_bind, MemGraph.edge, hgetb,
        deref_some, ok_bind, ← hqb]
      exact bind_eq_ok.mpr ⟨_, deref_eq_ok.mpr hnext, hm'⟩
    rename_i hw
    rw [filter_cons_of_pos (by simp [hw])]
    have hL' : L j = (pre ++ [(a, w)]) ++ rest := by rw [hL]; simp
    obtain ⟨m', q', hm', hrep⟩ := ih (q := some a) h hj hL' (by simp) hn'
    exact ⟨m', q', hm', by simpa using hrep⟩

end

/-- The list of `j`, without the edges that `keep` does not keep. -/
def filterAt (g : CudGraph) (j : Nat) (keep : Nat → Bool) : CudGraph :=
  { g with dlist := g.dlist.modify j fun x => { x with firstedge := x.firstedge.filter keep } }

theorem Rep.removeLoop (h : Rep m g) (hj : j < g.dlist.length) (dead : Nat → Bool) :
    ∃ p m' q', m.firstedge j = .ok p ∧ removeLoop j dead m.turns p q m = .ok (m', q') ∧
      Rep m' (filterAt g j fun a => !dead a) := by
  obtain ⟨L, h, rfl⟩ := h
  rw [length_graphOf] at hj
  have hL : L j = [] ++ L j := rfl
  obtain ⟨m', q', hm', hrep⟩ := removeLoop_eq (q := q) h hj hL (by simp) (h.length_lt hj)
  refine ⟨_, m', q', h.firstedge hj, hm', _, hrep.shape, ?_⟩
  refine (graphOf_update hrep.key hrep.dlist).trans ?_
  rw [filterAt, CudGraph.mk.injEq]
  refine ⟨rfl, hrep.edgenum, ext_getElem? fun v => ?_⟩
  rw [getElem?_modify, getElem?_modify]
  by_cases hv : j = v
  · subst hv
    simp [graphOf, getElem?_eq_getElem hj, filter_map, comp_def]
  · simp [hv]

theorem Rep.removeBack (h : Rep m g) (i : Nat) (keep : Nat → Bool)
    (hjs : ∀ j ∈ js, j < g.dlist.length) : ∃ m' q', removeBack i keep js (m, q) = .ok (m', q') ∧
      Rep m' (js.foldl (fun g j => filterAt g j fun a => a ≠ i || keep j) g) := by
  induction js generalizing m g q with
  | nil => exact ⟨m, q, rfl, h⟩
  | cons j js ih =>
    obtain ⟨p, m1, q1, hp, hm1, hrep1⟩ :=
      h.removeLoop (q := q) (hjs j (by simp)) fun a => a = i && !keep j
    have hlen : ∀ k : Nat → Bool, (filterAt g j k).dlist.length = g.dlist.length := fun k => by
      simp [filterAt]
    obtain ⟨m2, q2, hm2, hrep2⟩ := ih (q := q1) hrep1 fun k hk => by
      rw [hlen]
      exact hjs k (by simp [hk])
    refine ⟨m2, q2, ?_, ?_⟩
    · rw [MemGraph.removeBack, hp, ok_bind, hm1, ok_bind, hm2]
    rw [foldl_cons]
    convert hrep2 using 3
    funext a
    simp

theorem foldl_modify_range {α : Type} (f : Nat → α → α) (l : List α) :
    (range l.length).foldl (fun l j => l.modify j (f j)) l = l.mapIdx f := by
  have hturn : ∀ k v, ((range k).foldl (fun l j => l.modify j (f j)) l)[v]? =
      if v < k then l[v]?.map (f v) else l[v]? := by
    intro k v
    induction k with
    | zero => simp
    | succ k ih =>
      rw [range_succ, foldl_append, foldl_cons, foldl_nil, getElem?_modify, ih]
      by_cases hv : v = k
      · subst hv
        simp
      by_cases hlt : v < k
      · simp [hlt, Nat.lt_succ_of_lt hlt, Ne.symm hv]
      · simp [hlt, show ¬ v < k + 1 by omega, Ne.symm hv]
  refine ext_getElem? fun v => ?_
  rw [hturn, getElem?_mapIdx]
  split
  · rfl
  · next hv => simp [getElem?_eq_none (Nat.le_of_not_lt hv)]

theorem dropEdges_eq (g : CudGraph) (i : Nat) (keep : Nat → Bool) :
    (range g.dlist.length).foldl (fun g j => filterAt g j fun a => a ≠ i || keep j)
      (filterAt g i keep) = dropEdges g i keep := by
  have hfold : ∀ (js : List Nat) (h : CudGraph),
      js.foldl (fun g j => filterAt g j fun a => a ≠ i || keep j) h =
        { h with dlist := js.foldl (fun l j => l.modify j fun x =>
          { x with firstedge := x.firstedge.filter fun a => a ≠ i || keep j }) h.dlist } := by
    intro js
    induction js with
    | nil => intro h; rfl
    | cons j js ih => intro h; rw [foldl_cons, ih, foldl_cons]; rfl
  have hlen : g.dlist.length = (filterAt g i keep).dlist.length := by simp [filterAt]
  rw [hfold, hlen, foldl_modify_range fun j (x : Vertex) =>
    { x with firstedge := x.firstedge.filter fun a => a ≠ i || keep j }]
  rfl

theorem locateVex_lt (h : UfsRedis.locateVex g e = some i) : i < g.dlist.length :=
  (findIdx?_eq_some_iff_getElem.mp h).1

variable (h : Rep m g)
include h

theorem Rep.locateVex (e : Sds) : m.locateVex e = UfsRedis.locateVex g e := by
  obtain ⟨L, -, rfl⟩ := h
  exact (locateVex_graphOf e).symm

theorem Rep.name (v : Nat) : m.name v = g.name v := by
  obtain ⟨L, -, rfl⟩ := h
  exact (name_graphOf v).symm

theorem Rep.length : m.dlist.length = g.dlist.length := by
  obtain ⟨L, -, rfl⟩ := h
  exact length_graphOf.symm

theorem Rep.firstedge_none (hi : i < g.dlist.length) : m.firstedge i = .ok none ↔ g.adj i = [] := by
  obtain ⟨L, h, rfl⟩ := h
  rw [length_graphOf] at hi
  rw [h.firstedge hi, adj_graphOf hi, Except.ok.injEq, map_eq_nil_iff]
  cases L i with
  | nil => exact ⟨fun _ => rfl, fun _ => rfl⟩
  | cons e l => simp [start]

theorem Rep.removeAdjEdge (hr : UfsRedis.removeAdjEdge g v list = .ok g') :
    ∃ m', m.removeAdjEdge v list = .ok m' ∧ Rep m' g' := by
  obtain ⟨i, hi, hr⟩ := bind_eq_ok.mp hr
  have hloc : UfsRedis.locateVex g v = some i := by
    rcases hl : UfsRedis.locateVex g v with _ | k
    · rw [hl] at hi; cases hi
    rw [hl] at hi; cases hi; rfl
  have hlt := locateVex_lt hloc
  have hkeep : (fun j => keeps list (m.name j)) = fun j => keeps list (g.name j) := by
    funext j
    rw [h.name]
  rw [MemGraph.removeAdjEdge, h.locateVex, hloc, vex_some, ok_bind, hkeep]
  obtain ⟨p, m1, q1, hp, hm1, hrep1⟩ := h.removeLoop (q := none) hlt fun a => !keeps list (g.name a)
  rw [hp, ok_bind]
  obtain _ | p := p
  · rw [if_pos ((h.firstedge_none hlt).mp hp)] at hr
    cases hr
    exact ⟨m, rfl, h⟩
  have hne : g.adj i ≠ [] := fun hnil => by
    rw [(h.firstedge_none hlt).mpr hnil] at hp
    cases hp
  rw [if_neg hne] at hr
  cases hr
  simp only [Bool.not_not] at hrep1
  have hrange : ∀ j ∈ range g.dlist.length,
      j < (filterAt g i fun a => keeps list (g.name a)).dlist.length := by
    simp [filterAt]
  obtain ⟨m2, q2, hm2, hrep2⟩ :=
    hrep1.removeBack (q := q1) i (fun j => keeps list (g.name j)) hrange
  rw [dropEdges_eq] at hrep2
  refine ⟨m2, ?_, hrep2⟩
  dsimp only
  rw [hm1, ok_bind, h.length, hm2, ok_bind]

end

/-! ## The operations -/

variable {g g' : CudGraph} {x y a b : Sds}

theorem Rep.existEdgeNames (h : Rep m g) (hr : UfsRedis.existEdgeNames g x y = .ok r) :
    m.existEdgeNames x y = .ok r := by
  obtain ⟨v, hv, hr⟩ := bind_eq_ok.mp hr
  rw [MemGraph.existEdgeNames, h.locateVex, hv, ok_bind, h.locateVex]
  have hlt : v < g.dlist.length := by
    rcases hl : UfsRedis.locateVex g x with _ | k
    · rw [hl] at hv; cases hv
    rw [hl] at hv; cases hv; exact locateVex_lt hl
  cases hw : UfsRedis.locateVex g y with
  | some w =>
    rw [hw] at hr
    exact (h.existEdge hlt).trans hr
  | none =>
    rw [hw] at hr
    obtain ⟨L, hs, rfl⟩ := h
    rw [length_graphOf] at hlt
    rw [hs.firstedge hlt, ok_bind]
    exact hr

/-- `g` has the lists of `m`, and its edges lead to vertices. -/
def Follows (m : MemGraph) (g : CudGraph) : Prop := Rep m g ∧ InRange g.dlist.length g

theorem Follows.createLinksNames (h : Follows m g) (hr : UfsRedis.createLinksNames g x y = .ok g') :
    ∃ m', m.createLinksNames x y = .ok m' ∧ Follows m' g' := by
  obtain ⟨i, hi, hr⟩ := bind_eq_ok.mp hr
  obtain ⟨j, hj, hr⟩ := bind_eq_ok.mp hr
  cases hr
  have hlt : ∀ {e : Sds} {k : Nat}, vex (UfsRedis.locateVex g e) = .ok k → k < g.dlist.length := by
    intro e k hk
    rcases hl : UfsRedis.locateVex g e with _ | k'
    · rw [hl] at hk; cases hk
    rw [hl] at hk; cases hk; exact locateVex_lt hl
  obtain ⟨m', hm', hrep, hrange, -⟩ := adds_createLinks (hlt hi) (hlt hj) m g h.1 h.2
  refine ⟨m', ?_, hrep, by rwa [hrange.1]⟩
  rw [MemGraph.createLinksNames, h.1.locateVex, hi, ok_bind, h.1.locateVex, hj, ok_bind]
  exact hm'

theorem Follows.orElse {c : Except Fault Bool} {c' : Except Fault Bool}
    {f : Except Fault CudGraph} {f' : Except Fault MemGraph} (h : Follows m g)
    (hc : ∀ r, c = .ok r → c' = .ok r) (hf : f = .ok g' → ∃ m', f' = .ok m' ∧ Follows m' g')
    (hr : (do if ← c then .ok g else f) = .ok g') :
    ∃ m', (do if ← c' then .ok m else f') = .ok m' ∧ Follows m' g' := by
  obtain ⟨r, hcr, hr⟩ := bind_eq_ok.mp hr
  rw [hc r hcr, ok_bind]
  split at hr
  · next hb =>
    cases hr
    exact ⟨m, if_pos hb, h⟩
  next hb =>
  rw [if_neg hb]
  exact hf hr

theorem Follows.unionProc (h : Follows m g) (hr : UfsRedis.unionProc g a b = .ok g') :
    ∃ m', m.unionProc a b = .ok m' ∧ Follows m' g' := by
  have hlinks : ∀ (es : List Sds) (y : Sds) {m : MemGraph} {g g' : CudGraph}, Follows m g →
      es.foldlM (fun g e => UfsRedis.createLinksNames g e y) g = .ok g' →
      ∃ m', es.foldlM (fun m e => m.createLinksNames e y) m = .ok m' ∧ Follows m' g' :=
    fun es y _ _ _ h hr => foldlM_simulates h (fun _ _ _ _ _ h hr => h.createLinksNames hr) hr
  rw [UfsRedis.unionProc] at hr
  rw [MemGraph.unionProc]
  by_cases hs : a = star ∨ b = star
  · rw [if_pos hs] at hr ⊢
    cases hr
    exact ⟨m, rfl, h⟩
  rw [if_neg hs] at hr ⊢
  cases ha : isSet a <;> cases hb : isSet b <;> simp only [ha, hb] at hr ⊢
  · exact h.createLinksNames hr
  · exact h.orElse (fun r hr => h.1.existEdgeNames hr) (hlinks _ _ h) hr
  · exact h.orElse (fun r hr => h.1.existEdgeNames hr) (hlinks _ _ h) hr
  refine h.orElse (fun r hr => h.1.existEdgeNames hr) (fun hr => ?_) hr
  exact foldlM_simulates h (fun g m e _ g' h hr =>
    foldlM_simulates h (fun _ _ _ _ _ h hr => h.createLinksNames hr) hr) hr

theorem Rep.splitProc (h : Rep m g) (hr : UfsRedis.splitProc g a = .ok g') :
    ∃ m', m.splitProc a = .ok m' ∧ Rep m' g' := by
  rw [UfsRedis.splitProc] at hr
  rw [MemGraph.splitProc]
  split at hr
  · next hset =>
    rw [if_pos hset]
    exact foldlM_simulates h (fun _ _ _ _ _ h hr => h.removeAdjEdge hr) hr
  next hset =>
  rw [if_neg hset]
  split at hr
  · next hstar =>
    rw [if_pos hstar]
    exact h.removeAdjEdge hr
  next hstar =>
  cases hr
  exact ⟨m, if_neg hstar, h⟩

end MemGraph

/-! ## What the operations do to the classes -/

open Partition CudGraph

variable {m : MemGraph} {g g' : CudGraph} {X Y : List Sds}

def Separable (X : List Sds) : Prop := ∀ x ∈ X, x ≠ [] ∧ ',' ∉ x

theorem Separable.split (hX : Separable X) : sdssplit (sdsjoin X ',') ',' = X :=
  sdssplit_sdsjoin (fun x hx => (hX x hx).2) fun x hx => (hX x hx).1

theorem Separable.join_eq_star (hX : Separable X) : sdsjoin X ',' = star ↔ X = [star] := by
  constructor
  · intro h
    rw [← hX.split, h]
    exact sdssplit_name (by decide)
  rintro rfl
  exact sdsjoin_singleton _ _

theorem removeAdjEdge_adj (hr : removeAdjEdge g v list = .ok g')
    (hu : ∀ i, i < g.dlist.length → g.name i = v → u ≠ i ∧ i ∉ g.adj u) :
    g'.names = g.names ∧ g'.adj u = g.adj u := by
  obtain ⟨i, hi, hr⟩ := bind_eq_ok.mp hr
  split at hr
  · cases hr
    exact ⟨rfl, rfl⟩
  cases hr
  refine ⟨names_dropEdges _ _ _, ?_⟩
  have hloc : locateVex g v = some i := by
    rcases hl : locateVex g v with _ | k
    · rw [hl] at hi; cases hi
    rw [hl] at hi; cases hi; rfl
  have hlt := MemGraph.locateVex_lt hloc
  have hname : g.name i = v := by
    obtain ⟨_, hdata, -⟩ := findIdx?_eq_some_iff_getElem.mp hloc
    simpa [CudGraph.name, getElem?_eq_getElem hlt] using hdata
  obtain ⟨hne, hmem⟩ := hu i hlt hname
  rw [adj_dropEdges, if_neg hne, filter_eq_self]
  intro p hp
  have hpi : p ≠ i := fun e => hmem (e ▸ hp)
  simp [hpi]

theorem splitProc_adj (hr : splitProc g a = .ok g') (ha : a ≠ [])
    (hu : ∀ i, i < g.dlist.length → g.name i ∈ sdssplit a ',' → u ≠ i ∧ i ∉ g.adj u) :
    g'.adj u = g.adj u := by
  rw [splitProc] at hr
  split at hr
  · have hkept : g'.names = g.names ∧ g'.adj u = g.adj u := by
      refine foldlM_ok (P := fun k => k.names = g.names ∧ k.adj u = g.adj u) ⟨rfl, rfl⟩ ?_ hr
      rintro k e he k' ⟨hn, hadj⟩ hk
      have hlen : k.dlist.length = g.dlist.length := by rw [← length_names, hn, length_names]
      obtain ⟨hn', hadj'⟩ := removeAdjEdge_adj (u := u) hk fun i hi hname => by
        rw [hadj]
        refine hu i (hlen ▸ hi) ?_
        rwa [← name_congr hn, hname]
      exact ⟨hn'.trans hn, hadj'.trans hadj⟩
    exact hkept.2
  next hset =>
  have hsplit : sdssplit a ',' = [a] := by
    have hsep : Separable [a] := by simpa [Separable, ha, isSet] using hset
    simpa using hsep.split
  split at hr
  · refine (removeAdjEdge_adj hr fun i hi hname => hu i hi ?_).2
    rw [hname, hsplit]
    exact mem_singleton_self a
  cases hr
  rfl

/-- The elements `es`, without edges. -/
def MemGraph.ofNames (es : List Sds) : MemGraph := ⟨[], 0, es.map (⟨·, none⟩), Heap.empty⟩

/-- The elements `es`, each in a class of its own. -/
def CudGraph.ofNames (es : List Sds) : CudGraph := ⟨[], 0, es.map (⟨·, []⟩)⟩

theorem adj_ofNames (es : List Sds) (u : Nat) : (CudGraph.ofNames es).adj u = [] := by
  rw [CudGraph.adj, CudGraph.ofNames, getElem?_map]
  cases es[u]? <;> rfl

theorem names_ofNames (es : List Sds) : (CudGraph.ofNames es).names = es := by
  rw [CudGraph.names, CudGraph.ofNames, map_map]
  exact map_id es

theorem cliques_ofNames (es : List Sds) : Cliques (CudGraph.ofNames es) := by
  refine ⟨⟨?_, ?_, ?_, ?_⟩, ?_⟩ <;> simp [adj_ofNames]

theorem rep_ofNames (es : List Sds) : (MemGraph.ofNames es).Rep (CudGraph.ofNames es) := by
  have hcells : ∀ n, MemGraph.allCells n (fun _ => []) = [] := fun n => by
    rw [MemGraph.allCells, flatMap_eq_nil_iff]
    exact fun _ _ => rfl
  refine ⟨fun _ => [], ⟨fun v x hx => ?_, ?_⟩, ?_⟩
  · rw [MemGraph.ofNames, getElem?_map] at hx
    rcases hv : es[v]? with _ | e
    · rw [hv] at hx; cases hx
    rw [hv] at hx; cases hx; rfl
  · rw [hcells]
    exact ⟨nodup_nil, by simp⟩
  rw [MemGraph.graphOf, CudGraph.ofNames, MemGraph.ofNames, CudGraph.mk.injEq]
  refine ⟨rfl, rfl, ext_getElem? fun v => ?_⟩
  rw [getElem?_mapIdx, getElem?_map, getElem?_map]
  cases es[v]? <;> rfl

theorem operandOk_single (hx : x ∈ E) : OperandOk E p [x] :=
  ⟨cons_ne_nil _ _, nodup_singleton _, by simpa using hx, by simp⟩

theorem exists_linked (x y : Sds) (es : List Sds) (hnd : (x :: y :: es).Nodup) :
    ∃ m g, MemGraph.Rep m g ∧ Cliques g ∧ g.names = x :: y :: es ∧ g.partition x y := by
  have hc := cliques_ofNames (x :: y :: es)
  have hr : MemGraph.InRange _ (CudGraph.ofNames (x :: y :: es)) := ⟨rfl, by simp [adj_ofNames]⟩
  have hnames := names_ofNames (x :: y :: es)
  have h0 : 0 < (CudGraph.ofNames (x :: y :: es)).dlist.length := by simp [CudGraph.ofNames]
  have h1 : 1 < (CudGraph.ofNames (x :: y :: es)).dlist.length := by simp [CudGraph.ofNames]
  obtain ⟨m, -, hrep, -, -⟩ := MemGraph.adds_createLinks h0 h1 _ _ (rep_ofNames _) hr
  obtain ⟨hc', hn, -⟩ := createLinks_spec hc h0 h1
  refine ⟨m, _, hrep, hc', hn.trans hnames, ?_⟩
  rw [partition_createLinks hc (by rwa [hnames]) h0 h1]
  exact glue_rel (by simp [name_eq_getD, hnames]) (by simp [name_eq_getD, hnames])

/-- **`createLinks` merges two classes, and `unionProc` the classes of its operands.** The element
`*` stands for an operand that a transformation left empty. -/
theorem createLinks_merges (h : m.Rep g) (hg : Cliques g) :
    (∀ i j, i < g.dlist.length → j < g.dlist.length →
      ∃ m' g', m.createLinks i j = .ok m' ∧ m'.Rep g' ∧ Cliques g' ∧ g'.names = g.names ∧
        ∀ u v, Conn g' u v ↔ Conn g u v ∨ ((Conn g u i ∨ Conn g u j) ∧ (Conn g v i ∨ Conn g v j))) ∧
    (g.names.Nodup → ∀ X Y, OperandOk g.names g.partition X → OperandOk g.names g.partition Y →
      Separable X → Separable Y →
      ∃ m' g', m.unionProc (sdsjoin X ',') (sdsjoin Y ',') = .ok m' ∧ m'.Rep g' ∧ Cliques g' ∧
        g'.names = g.names ∧ (X = [star] ∨ Y = [star] → m' = m ∧ g' = g) ∧ g'.partition =
          if X = [star] ∨ Y = [star] then g.partition else glue g.partition {x | x ∈ X ++ Y}) := by
  have hrange : MemGraph.InRange g.dlist.length g := ⟨rfl, fun u w hw => hg.inRange hw⟩
  refine ⟨fun i j hi hj => ?_, fun hnd X Y hX hY hXn hYn => ?_⟩
  · obtain ⟨m', hm', hrep, -, -⟩ := MemGraph.adds_createLinks hi hj m g h hrange
    obtain ⟨hc, hnames, hconn⟩ := createLinks_spec hg hi hj
    exact ⟨m', _, hm', hrep, hc, hnames, hconn⟩
  by_cases hs : X = [star] ∨ Y = [star]
  · refine ⟨m, g, ?_, h, hg, rfl, fun _ => ⟨rfl, rfl⟩, (if_pos hs).symm⟩
    rw [MemGraph.unionProc, if_pos (hs.imp hXn.join_eq_star.mpr hYn.join_eq_star.mpr)]
  obtain ⟨hXs, hYs⟩ := not_or.mp hs
  have hhas : GraphHas g.names g g.partition := ⟨rfl, hnd, hg, rfl⟩
  obtain ⟨g', hr, hhas'⟩ := hhas.unionProc hX.mem hY.mem hXn hYn hX.ne hY.ne
    (mt hXn.join_eq_star.mp hXs) (mt hYn.join_eq_star.mp hYs)
  obtain ⟨m', hm', hrep, -⟩ := MemGraph.Follows.unionProc ⟨h, hrange⟩ hr
  refine ⟨m', g', hm', hrep, hhas'.cliques, hhas'.names, fun h => absurd h hs, ?_⟩
  rw [if_neg hs, hhas'.partition, unionAct_of_operands hX hY]

/-- `union a,b c`, where `a` and `b` are in one class. -/
theorem createLinks_merges_pair : ∃ m g m' g', MemGraph.Rep m g ∧ g.names = [['a'], ['b'], ['c']] ∧
    g.partition ['a'] ['b'] ∧ m.unionProc ['a', ',', 'b'] ['c'] = .ok m' ∧ m'.Rep g' ∧
      g'.names = g.names ∧ g'.partition = glue g.partition {x | x ∈ [['a'], ['b']] ++ [['c']]} := by
  obtain ⟨m, g, hrep, hc, hn, hp⟩ := exists_linked ['a'] ['b'] [['c']] (by decide)
  have hX : OperandOk g.names g.partition [['a'], ['b']] :=
    ⟨by simp, by decide, by simp [hn], by simp [hp, g.partition.symm' hp]⟩
  obtain ⟨m', g', hm', hrep', -, hn', -, hp'⟩ := (createLinks_merges hrep hc).2
    (by rw [hn]; decide) _ [['c']] hX (operandOk_single (by simp [hn])) (by simp [Separable])
    (by simp [Separable])
  exact ⟨m, g, m', g', hrep, hn, hp, hm', hrep', hn', hp'⟩

/-- An element named `*` is not merged: `unionProc` takes its name for an empty operand. -/
theorem unionProc_star_element : ∃ m g, MemGraph.Rep m g ∧ Cliques g ∧ g.names = [star, ['a']] ∧
    m.unionProc star ['a'] = .ok m ∧ ¬ g.partition star ['a'] := by
  refine ⟨_, _, rep_ofNames [star, ['a']], cliques_ofNames _, names_ofNames _, rfl, ?_⟩
  rw [partition_eq_bot (adj_ofNames _)]
  exact fun h => absurd (show star = ['a'] from h) (by decide)

/-- **`splitProc` splits a class**, and leaves the lists of the other classes alone. -/
theorem splitProc_splits (h : m.Rep g) (hg : Cliques g) (hnd : g.names.Nodup)
    (hX : OperandOk g.names g.partition X) (hXn : Separable X) :
    ∃ m' g', m.splitProc (sdsjoin X ',') = .ok m' ∧ m'.Rep g' ∧ Cliques g' ∧ g'.names = g.names ∧
      (X = [star] → m' = m ∧ g' = g) ∧
      g'.partition = (if X = [star] then g.partition else cut g.partition {x | x ∈ X}) ∧
      ∀ u, (∀ x ∈ X, ¬ g.partition (g.name u) x) → g'.adj u = g.adj u := by
  by_cases hs : X = [star]
  · refine ⟨m, g, ?_, h, hg, rfl, fun _ => ⟨rfl, rfl⟩, (if_pos hs).symm, fun _ _ => rfl⟩
    rw [hXn.join_eq_star.mpr hs]
    rfl
  have hhas : GraphHas g.names g g.partition := ⟨rfl, hnd, hg, rfl⟩
  obtain ⟨g', hr, hhas'⟩ := hhas.splitProc hX.mem hXn hX.ne (mt hXn.join_eq_star.mp hs)
  obtain ⟨m', hm', hrep⟩ := h.splitProc hr
  have hne : sdsjoin X ',' ≠ [] := sdsjoin_eq_nil hX.ne fun x hx => (hXn x hx).1
  refine ⟨m', g', hm', hrep, hhas'.cliques, hhas'.names, fun h => absurd h hs,
    by rw [if_neg hs, hhas'.partition], fun u hu => splitProc_adj hr hne fun i hi hname => ?_⟩
  -- a name of the operand is not in the class of `u`
  rw [hXn.split] at hname
  refine ⟨?_, fun hadj => ?_⟩
  · rintro rfl
    exact hu _ hname (g.partition.refl' _)
  · exact hu _ hname (partition_of_mem_adj (lt_of_mem_adj hadj) hi hadj)

theorem splitProc_splits_linked : ∃ m g m' g', MemGraph.Rep m g ∧ g.partition ['a'] ['b'] ∧
    m.splitProc ['a'] = .ok m' ∧ m'.Rep g' ∧ ¬ g'.partition ['a'] ['b'] := by
  obtain ⟨m, g, hrep, hc, hn, hp⟩ := exists_linked ['a'] ['b'] [] (by decide)
  obtain ⟨m', g', hm', hrep', -, -, -, hp', -⟩ := splitProc_splits hrep hc (by rw [hn]; decide)
    (operandOk_single (x := ['a']) (by rw [hn]; decide)) (by simp [Separable])
  refine ⟨m, g, m', g', hrep, hp, hm', hrep', fun hab => ?_⟩
  rw [hp', if_neg (by decide), cut_iff] at hab
  simp at hab

/-- An element named `*` is not split off: `splitProc` takes its name for an empty operand. -/
theorem splitProc_star_element : ∃ m g, MemGraph.Rep m g ∧ Cliques g ∧ g.names = [star, ['a']] ∧
    g.partition star ['a'] ∧ m.splitProc star = .ok m := by
  obtain ⟨m, g, hrep, hc, hn, hp⟩ := exists_linked star ['a'] [] (by decide)
  exact ⟨m, g, hrep, hc, hn, hp, rfl⟩

end UfsRedis
