import UfsRedis.Ufs.Query
import UfsRedis.Ufs.SetOps

/-!
# The replies of `umembers` and `find`

* `Reachable key S g`: `uinit key S`, and any operations after it that return, have made `g`;
* `canonical E p`: the classes of `p` in the order of their first elements, each in the order of the
  elements `E`;
* `umembers_canonical`: the reply of `umembers` is the canonical form of the partition, in the order
  of the vertices;
* `find_agrees_iff`: when the reply of `find` is a class of the reply of `umembers`.

The order of the vertices is that of the argument of `uinit`, so two arguments that denote one
partition have different replies if they name the elements in different orders
(`umembers_order`).
-/

namespace UfsRedis

open List Lib CudGraph

variable {E : List Sds} {p : Setoid Sds} {i : Nat} {g : CudGraph} {n : Node}

/-! ## Operations that return -/

section

variable {g g' : CudGraph} {x y : Sds}

theorem mem_names_of_vex (h : vex (locateVex g x) = .ok i) : x ∈ g.names := by
  rcases hloc : locateVex g x with _ | j
  · rw [hloc] at h
    cases h
  obtain ⟨hj, hx, -⟩ := findIdx?_eq_some_iff_getElem.mp hloc
  have hmem := mem_map_of_mem (f := Vertex.data) (getElem_mem hj)
  rwa [of_decide_eq_true hx] at hmem

theorem GraphShows.createLinksNames_ok (h : GraphShows E g p)
    (hr : UfsRedis.createLinksNames g x y = .ok g') : GraphShows E g' (Partition.glue p {x, y}) := by
  have hmem : x ∈ E ∧ y ∈ E := by
    have hr' := hr
    simp only [UfsRedis.createLinksNames, bind_eq_ok] at hr'
    obtain ⟨i, hi, j, hj, -⟩ := hr'
    exact h.names ▸ ⟨mem_names_of_vex hi, mem_names_of_vex hj⟩
  obtain ⟨g1, hr1, hg1⟩ := h.createLinksNames hmem.1 hmem.2
  rw [hr, Except.ok.injEq] at hr1
  exact hr1 ▸ hg1

theorem mem_names_of_removeAll {t L : List Sds}
    (hr : L.foldlM (fun g e => removeAdjEdge g e (some t)) g = .ok g') : ∀ x ∈ L, x ∈ g.names := by
  induction L generalizing g with
  | nil => simp
  | cons e L ih =>
    rw [foldlM_cons, bind_eq_ok] at hr
    obtain ⟨g1, hr1, hrest⟩ := hr
    intro x hx
    rcases mem_cons.mp hx with rfl | hx
    · obtain ⟨i, hi, -⟩ := bind_eq_ok.mp hr1
      exact mem_names_of_vex hi
    rw [← (sameVertices_removeAdjEdge hr1).names]
    exact ih hrest x hx

theorem GraphShows.splitProc_ok {a : Sds} (h : GraphShows E g p)
    (hr : UfsRedis.splitProc g a = .ok g') : ∃ p', GraphShows E g' p' := by
  have hcut : ∀ {T : Set Sds} {k : CudGraph}, CutTo g T k → GraphShows E k (Partition.cut p T) :=
    fun hk => ⟨hk.names.trans h.names, h.nodup, h.nameOk, hk.cliques h.cliques, by
      rw [hk.partition h.cliques h.nodup_names, h.partition]⟩
  unfold UfsRedis.splitProc at hr
  split at hr
  · obtain ⟨k, hr', hk⟩ :=
      splitProc_set h.cliques.toSimple h.nodup_names (mem_names_of_removeAll hr)
    rw [hr, Except.ok.injEq] at hr'
    exact ⟨_, hr' ▸ hcut hk⟩
  split at hr
  · obtain ⟨v, hv, -⟩ := bind_eq_ok.mp hr
    obtain ⟨i, hi, rfl⟩ := exists_name (mem_names_of_vex hv)
    obtain ⟨k, hr', hk⟩ := removeAdjEdge_single h.cliques.toSimple h.nodup_names hi
    rw [hr, Except.ok.injEq] at hr'
    exact ⟨_, hr' ▸ hcut hk⟩
  cases hr
  exact ⟨p, h⟩

/-- **Any operation that returns** leaves a graph of the same elements. -/
theorem GraphShows.execOp_ok (h : GraphShows E g p)
    (hr : UfsRedis.execOp g op = .ok g') : ∃ p', GraphShows E g' p' := by
  unfold UfsRedis.execOp at hr
  split at hr
  · obtain ⟨b, -, hr⟩ := bind_eq_ok.mp hr
    exact unionProc_rule (P := fun g => ∃ p, GraphShows E g p)
      (fun ⟨p, hg⟩ hr => ⟨_, hg.createLinksNames_ok hr⟩) ⟨p, h⟩ hr
  · exact h.splitProc_ok hr

/-- The graphs that `uinit key S` and any operations after it make. -/
inductive Reachable (key S : Sds) : CudGraph → Prop
  | uinit {g : CudGraph} (h : uinitGraph key S = .ok g) : Reachable key S g
  | op {g g' : CudGraph} {op : UfsOp} (h : Reachable key S g) (hr : execOp g op = .ok g') :
    Reachable key S g'

theorem Reachable.graphShows {key S} (hS : WellFormed S) (h : Reachable key S g) :
    GraphShows (elementsOf S) g g.partition := by
  have hshow : ∃ p, GraphShows (elementsOf S) g p := by
    induction h with
    | uinit h =>
      obtain ⟨g0, hr, hg0, -⟩ := uinitGraph_spec key hS
      rw [h, Except.ok.injEq] at hr
      exact ⟨_, hr ▸ hg0⟩
    | op _ hr ih =>
      obtain ⟨p, hp⟩ := ih
      exact hp.execOp_ok hr
  obtain ⟨p, hp⟩ := hshow
  exact hp.partition ▸ hp

end

/-! ## The canonical form -/

/-- `x` has the smallest index of its class. -/
def IsFirst (E : List Sds) (p : Setoid Sds) (x : Sds) : Prop :=
  ∀ y ∈ E, E.idxOf y < E.idxOf x → ¬ p x y

open Classical in
/-- The classes of `p` by their smallest index, each in the order of `E`. -/
noncomputable def classList (E : List Sds) (p : Setoid Sds) : List (List Sds) :=
  (E.filter fun x => IsFirst E p x).map (classOf E p)

noncomputable def canonical (E : List Sds) (p : Setoid Sds) : Sds := render (classList E p)

section

variable (h : GraphShows E g p)
include h

theorem GraphShows.idxOf_name (hi : i < g.dlist.length) : E.idxOf (g.name i) = i := by
  have hi' : i < E.length := h.length_dlist ▸ hi
  rw [name_eq_getD, h.names, getD_eq_getElem _ _ hi']
  exact h.nodup.idxOf_getElem i hi'

theorem GraphShows.isFirst_iff (hi : i < g.dlist.length) :
    IsFirst E p (g.name i) ↔ skipped g i = false := by
  rw [← Bool.not_eq_true, h.skipped_iff_partition hi, IsFirst, h.idxOf_name hi]
  constructor
  · rintro hfirst ⟨j, hj, hp⟩
    have hj' : j < g.dlist.length := by omega
    exact hfirst _ (h.names ▸ name_mem hj') (by rwa [h.idxOf_name hj']) hp
  intro hno y hy hlt hp
  obtain ⟨j, hj, rfl, -⟩ := h.exists_vex hy
  rw [h.idxOf_name hj] at hlt
  exact hno ⟨j, hlt, hp⟩

theorem GraphShows.classList_eq :
    classList E p = (leaders g).map fun i => classOf E p (g.name i) := by
  classical
  have hE : E = (range g.dlist.length).map g.name := by rw [range_map_name, h.names]
  have hfilter : (E.filter fun x => IsFirst E p x) = (leaders g).map g.name := by
    refine (congrArg (filter fun x => decide (IsFirst E p x)) hE).trans ?_
    rw [filter_map, leaders]
    congr 1
    refine filter_congr fun i hi => ?_
    rw [Function.comp_apply, Bool.eq_iff_iff, decide_eq_true_iff,
      h.isFirst_iff (mem_range.mp hi), Bool.not_eq_true']
  rw [classList, hfilter, map_map]
  rfl

theorem GraphShows.umembersText_eq (hE : E.length ≠ 1) : umembersText g = canonical E p := by
  rw [umembersText, writeClasses_join g (by rwa [h.length_dlist]) fun i hi =>
    h.memberText_ne_nil (mem_leaders.mp hi).1, canonical, h.classList_eq, render, map_map]
  congr 1
  exact map_congr_left fun i hi => h.memberText_eq (mem_leaders.mp hi).1

end

/-! ## Strings of classes -/

namespace Classes

variable (cs : Classes) {x : Sds} {c : List Sds}

theorem exists_elements (hc : c ∈ cs.toList) :
    ∃ A B, cs.elements = A ++ (c ++ B) ∧ (∀ y ∈ c, y ∉ A) ∧ ∀ y ∈ c, y ∉ B := by
  obtain ⟨L, M, hLM⟩ := append_of_mem hc
  have hsplit : cs.elements = L.flatten ++ (c ++ M.flatten) := by
    rw [elements, hLM, flatten_append, flatten_cons]
  have hnd : (L.flatten ++ (c ++ M.flatten)).Nodup := hsplit ▸ cs.nodup
  obtain ⟨-, hnd', hL⟩ := nodup_append.mp hnd
  obtain ⟨-, -, hM⟩ := nodup_append.mp hnd'
  exact ⟨_, _, hsplit, fun y hy hyL => hL y hyL y (mem_append_left _ hy) rfl,
    fun y hy hyM => hM y hy y hyM rfl⟩

theorem partition_class (hc : c ∈ cs.toList) (hx : x ∈ c) (y : Sds) : cs.partition x y ↔ y ∈ c := by
  rw [← cs.partition_iff_mem hc hx]
  exact ⟨cs.partition.symm', cs.partition.symm'⟩

theorem classOf_eq (hc : c ∈ cs.toList) (hx : x ∈ c) : classOf cs.elements cs.partition x = c := by
  obtain ⟨A, B, hsplit, hA, hB⟩ := cs.exists_elements hc
  simp only [classOf, cs.partition_class hc hx, hsplit, filter_append]
  rw [filter_eq_nil_iff.mpr, filter_eq_self.mpr, filter_eq_nil_iff.mpr]
  · simp
  · intro y hy
    simpa using fun hyc => hB y hyc hy
  · simp
  intro y hy
  simpa using fun hyc => hA y hyc hy

theorem isFirst_iff (hc : x :: xs ∈ cs.toList) (hy : y ∈ x :: xs) :
    IsFirst cs.elements cs.partition y ↔ y = x := by
  obtain ⟨A, B, hsplit, hA, -⟩ := cs.exists_elements hc
  have hidx : ∀ z ∈ x :: xs, cs.elements.idxOf z = (x :: (xs ++ B)).idxOf z + A.length := by
    intro z hz
    rw [hsplit, idxOf_append, if_neg (hA z hz), cons_append]
  have hx : cs.elements.idxOf x = A.length := by
    rw [hidx x (by simp), idxOf_cons_self, Nat.zero_add]
  constructor
  · intro hfirst
    by_contra hne
    refine hfirst x (cs.mem_elements hc (by simp)) ?_ ((cs.partition_class hc hy x).mpr (by simp))
    rw [hx, hidx y hy, idxOf_cons_ne _ (Ne.symm hne)]
    omega
  rintro rfl z - hlt hp
  rw [hx, hidx z ((cs.partition_class hc hy z).mp hp)] at hlt
  omega

theorem classList_eq : classList cs.elements cs.partition = cs.toList := by
  classical
  have hclass : ∀ c ∈ cs.toList, (c.filter fun y => IsFirst cs.elements cs.partition y).map
      (classOf cs.elements cs.partition) = [c] := by
    intro c hc
    obtain ⟨x, xs, rfl⟩ := exists_cons_of_ne_nil (cs.ne c hc)
    have hnd := cs.class_nodup hc
    have hfilter : ((x :: xs).filter fun y => IsFirst cs.elements cs.partition y) = [x] := by
      rw [filter_cons_of_pos (by simpa using (cs.isFirst_iff hc (by simp)).mpr rfl),
        filter_eq_nil_iff.mpr]
      intro y hy
      simp only [decide_eq_true_eq, cs.isFirst_iff hc (mem_cons_of_mem x hy)]
      rintro rfl
      exact (nodup_cons.mp hnd).1 hy
    rw [hfilter, map_singleton, cs.classOf_eq hc (by simp)]
  have hflat : ∀ (P : Sds → Bool) (f : Sds → List Sds),
      (cs.elements.filter P).map f = (cs.toList.map fun c => (c.filter P).map f).flatten := by
    intro P f
    rw [elements, filter_flatten, map_flatten, map_map]
    rfl
  rw [classList, hflat, map_congr_left hclass]
  rw [← flatMap_def, flatMap_singleton']

end Classes

theorem canonical_denote {S} (hS : WellFormed S) : canonical (elementsOf S) (denote S) = S := by
  obtain ⟨cs, rfl, -⟩ := hS.exists_classes
  rw [cs.elementsOf_render, cs.denote_render, canonical, cs.classList_eq]
  rfl

/-! ## The reply -/

section

variable {key S : Sds}

/-- **The reply of `umembers` is a canonical form.** For a well-formed argument of `uinit` with two
or more elements, without NUL bytes: the reply after `uinit` is the argument; the vertices stay in
the order of the argument; the reply for any graph made after it lists the classes of its partition
by their smallest index, with the members of a class in the order of the vertices; and so any two
histories after the same `uinit` that reach the same partition give the same reply. -/
theorem umembers_canonical (hS : Members S) (hE : 2 ≤ (elementsOf S).length) :
    (∃ g, uinitGraph key S = .ok g ∧ umembersText g = S) ∧
      ∀ n g, getUfs n key = .ok (some g) → Reachable key S g → g.names = elementsOf S ∧
        umembersCommand n [umembersCmd, key] = .ok (canonical g.names g.partition) ∧
        ∀ n' g', getUfs n' key = .ok (some g') → Reachable key S g' →
          g.partition = g'.partition → umembersCommand n [umembersCmd, key] =
            umembersCommand n' [umembersCmd, key] := by
  have hE' : (elementsOf S).length ≠ 1 := by omega
  have hreply : ∀ n g, getUfs n key = .ok (some g) → Reachable key S g →
      umembersCommand n [umembersCmd, key] = .ok (canonical (elementsOf S) g.partition) := by
    intro n g hn hg
    rw [umembersCommand_eq hn, (hg.graphShows hS.wellFormed).umembersText_eq hE']
  constructor
  · obtain ⟨g, hr, hg, -⟩ := uinitGraph_spec key hS.wellFormed
    exact ⟨g, hr, by rw [hg.umembersText_eq hE', canonical_denote hS.wellFormed]⟩
  intro n g hn hg
  have hnames := (hg.graphShows hS.wellFormed).names
  refine ⟨hnames, by rw [hnames]; exact hreply n g hn hg, ?_⟩
  intro n' g' hn' hg' hp
  rw [hreply n g hn hg, hreply n' g' hn' hg', hp]

/-- After `uinit k a,b/c` and a union of `c` and `a`. -/
theorem umembers_canonical_union : ∃ g g' : CudGraph,
    uinitGraph ['k'] ['a', ',', 'b', '/', 'c'] = .ok g ∧ execOp g (unionOp ['c'] ['a']) = .ok g' ∧ ∀ n, getUfs n ['k'] = .ok (some g') →
      umembersCommand n [umembersCmd, ['k']] = .ok (canonical g'.names g'.partition) := by
  have hrun : ∃ g, uinitGraph ['k'] ['a', ',', 'b', '/', 'c'] = .ok g ∧
      ∃ g', execOp g (unionOp ['c'] ['a']) = .ok g' ∧ g'.names.length = 3 := by decide +kernel
  obtain ⟨g, hg, g', hg', -⟩ := hrun
  refine ⟨g, g', hg, hg', fun n hn => ?_⟩
  exact ((umembers_canonical ⟨by decide +kernel, by decide +kernel⟩ (by decide +kernel)).2 n g' hn
    (.op (.uinit hg) hg')).2.1

/-- The same partition, with the elements named in another order, has another reply; and an argument
that names an element twice is not the reply after `uinit`. -/
theorem umembers_order : denote ['a', ',', 'b'] = denote ['b', ',', 'a'] ∧
    (∃ g, uinitGraph ['k'] ['a', ',', 'b'] = .ok g ∧ umembersText g = ['a', ',', 'b']) ∧
    (∃ g, uinitGraph ['k'] ['b', ',', 'a'] = .ok g ∧ umembersText g = ['b', ',', 'a']) ∧
    ∃ g, uinitGraph ['k'] ['a', ',', 'a', '/', 'b'] = .ok g ∧
      umembersText g = ['a', '/', 'a', '/', 'b'] := by
  refine ⟨?_, by decide +kernel, by decide +kernel, by decide +kernel⟩
  have hab : classesOf ['a', ',', 'b'] = [[['a'], ['b']]] := by decide +kernel
  have hba : classesOf ['b', ',', 'a'] = [[['b'], ['a']]] := by decide +kernel
  rw [denote, denote, hab, hba, partitionOf, partitionOf]
  congr 1
  funext x y
  simp [InClass, or_comm]

end

/-! ## `find` and `umembers` -/

/-- The reply of `find x key` is the class of the reply of `umembers key` that has `x`. -/
def FindAgrees (n : Node) (key x : Sds) : Prop :=
  ∃ u seg, umembersCommand n [umembersCmd, key] = .ok u ∧ seg ∈ sdssplit u '/' ∧
    x ∈ sdssplit seg ',' ∧ findCommand n [findCmd, x, key] = .ok seg

variable {key S x : Sds}

theorem flatten_eq_sdsjoin_iff (hc : c ≠ []) : c.flatten = sdsjoin c ',' ↔ c.length = 1 := by
  constructor
  · intro h
    have hlen := length_sdsjoin hc ','
    have hsum : (c.map (·.length + 1)).sum = c.flatten.length + c.length := by
      clear h hlen hc
      induction c with
      | nil => rfl
      | cons x c ih =>
        simp only [map_cons, sum_cons, flatten_cons, length_append, length_cons, ih]
        omega
    rw [← h, hsum] at hlen
    omega
  intro h
  obtain ⟨x, rfl⟩ := length_eq_one_iff.mp h
  simp

theorem mem_classOf_self (hx : x ∈ E) : x ∈ classOf E p x := mem_classOf.mpr ⟨hx, p.refl' x⟩

theorem GraphShows.length_classOf_iff (h : GraphShows E g p) (hx : x ∈ E) :
    (classOf E p x).length = 1 ↔ ∀ y ∈ E, p x y → y = x := by
  have hself : x ∈ classOf E p x := mem_classOf_self hx
  constructor
  · intro hlen y hy hxy
    obtain ⟨z, hz⟩ := length_eq_one_iff.mp hlen
    have hyz : y ∈ classOf E p x := mem_classOf.mpr ⟨hy, hxy⟩
    rw [hz, mem_singleton] at hself hyz
    rw [hself, hyz]
  intro hall
  have hperm : (classOf E p x).Perm [x] := by
    refine (perm_ext_iff_of_nodup (h.nodup_classOf x) (by simp)).mpr fun y => ?_
    rw [mem_classOf, mem_singleton]
    exact ⟨fun hy => hall y hy.1 hy.2, by rintro rfl; exact ⟨hx, p.refl' y⟩⟩
  exact hperm.length_eq

theorem GraphShows.segment_iff (h : GraphShows E g p) (hE : E.length ≠ 1) (hx : x ∈ E) :
    seg ∈ sdssplit (umembersText g) '/' ∧ x ∈ sdssplit seg ',' ↔
      seg = sdsjoin (classOf E p x) ',' := by
  rw [h.umembersText_classes hE, Classes.split_render]
  have hclass : ∀ c ∈ h.sortedClasses.toList, x ∈ c → c = classOf E p x := by
    intro c hc hxc
    obtain ⟨i, hi, rfl⟩ := mem_map.mp hc
    have hix : p (g.name i) x := (mem_classOf.mp hxc).2
    refine filter_congr fun y _ => decide_eq_decide.mpr ⟨fun hy => ?_, fun hy => ?_⟩
    · exact p.trans' (p.symm' hix) hy
    · exact p.trans' hix hy
  constructor
  · rintro ⟨hseg, hxs⟩
    obtain ⟨c, hc, rfl⟩ := mem_map.mp hseg
    rw [h.sortedClasses.split_join hc] at hxs
    rw [hclass c hc hxs]
  rintro rfl
  obtain ⟨c, hc, hxc⟩ := mem_flatten.mp (h.elements_sortedClasses.mem_iff.mpr hx)
  rw [← hclass c hc hxc, h.sortedClasses.split_join hc]
  exact ⟨mem_map.mpr ⟨c, hc, rfl⟩, hxc⟩

theorem sdsrange_eq_self_iff (hx : x ≠ []) : sdsrange x 0 ((x.length : Int) - 2) = x ↔
    x.length = 1 := by
  have hpos := length_pos_of_ne_nil hx
  constructor
  · intro h
    by_contra hone
    have hlen := congrArg length h
    rw [sdsrange_zero (by omega) (by omega), length_take] at hlen
    omega
  intro h
  obtain ⟨c, rfl⟩ := length_eq_one_iff.mp h
  rfl

theorem GraphShows.segment_single_iff (h : GraphShows [x] g p) {seg} :
    seg ∈ sdssplit (umembersText g) '/' ∧ x ∈ sdssplit seg ',' ↔ x.length = 1 ∧ seg = x := by
  have hx : NameOk x := h.nameOk x (by simp)
  have ht := sdsrange_name hx
  have hsplit : sdssplit (sdsrange x 0 ((x.length : Int) - 2)) '/' =
      [sdsrange x 0 ((x.length : Int) - 2)] := by
    conv_lhs => rw [← sdsjoin_singleton (sdsrange x 0 ((x.length : Int) - 2)) '/']
    exact sdssplit_sdsjoin (by simpa using ht.2.2) (by simpa using ht.1)
  rw [h.umembersText_single, hsplit, mem_singleton, ← sdsrange_eq_self_iff hx.1]
  constructor
  · rintro ⟨rfl, hmem⟩
    rw [sdssplit_name ht, mem_singleton] at hmem
    exact ⟨hmem.symm, hmem.symm⟩
  rintro ⟨heq, rfl⟩
  exact ⟨heq.symm, by rw [sdssplit_name hx]; simp⟩

/-- **`find` and `umembers`.** After `uinit` with distinct names and any operations, the reply of
`find x` is the class of the reply of `umembers` iff `x` is alone in its class (since the names of a
class are written without commas) and is not the only element, unless it has one character. -/
theorem find_agrees_iff (hS : WellFormed S) (hg : Reachable key S g)
    (hn : getUfs n key = .ok (some g)) (hx : x ∈ elementsOf S) :
    FindAgrees n key x ↔ (∀ y ∈ elementsOf S, g.partition x y → y = x) ∧
      ((elementsOf S).length = 1 → x.length = 1) := by
  have h := hg.graphShows hS
  have hagree : FindAgrees n key x ↔ ∃ seg, (seg ∈ sdssplit (umembersText g) '/' ∧
      x ∈ sdssplit seg ',') ∧ (classOf (elementsOf S) g.partition x).flatten = seg := by
    rw [FindAgrees, umembersCommand_eq hn, findCommand_eq hn, h.findText_eq hx]
    constructor
    · rintro ⟨u, seg, hu, hseg, hxs, hfind⟩
      cases hu
      exact ⟨seg, ⟨hseg, hxs⟩, Except.ok.inj hfind⟩
    rintro ⟨seg, ⟨hseg, hxs⟩, hfind⟩
    exact ⟨_, seg, rfl, hseg, hxs, congrArg _ hfind⟩
  rw [hagree]
  by_cases hE : (elementsOf S).length = 1
  · obtain ⟨y, hy⟩ := length_eq_one_iff.mp hE
    obtain rfl : x = y := by rwa [hy, mem_singleton] at hx
    rw [hy] at h ⊢
    simp only [h.segment_single_iff, classOf_single, flatten_singleton]
    constructor
    · rintro ⟨seg, ⟨hone, -⟩, -⟩
      exact ⟨fun y hy _ => mem_singleton.mp hy, fun _ => hone⟩
    rintro ⟨-, hone⟩
    exact ⟨x, ⟨hone rfl, rfl⟩, rfl⟩
  have hne : classOf (elementsOf S) g.partition x ≠ [] := ne_nil_of_mem (mem_classOf_self hx)
  simp [h.segment_iff hE hx, flatten_eq_sdsjoin_iff hne, h.length_classOf_iff hx, hE]

/-- After `uinit k a,b/c`, `find c` agrees. -/
theorem find_agrees_iff_singleton : ∃ g : CudGraph,
    uinitGraph ['k'] ['a', ',', 'b', '/', 'c'] = .ok g ∧ ∀ n, getUfs n ['k'] = .ok (some g) → (FindAgrees n ['k'] ['c'] ↔
      (∀ y ∈ [['a'], ['b'], ['c']], g.partition ['c'] y → y = ['c']) ∧
        ([['a'], ['b'], ['c']].length = 1 → ['c'].length = 1)) := by
  have hel : elementsOf ['a', ',', 'b', '/', 'c'] = [['a'], ['b'], ['c']] := by decide +kernel
  obtain ⟨g, hg, -⟩ := uinitGraph_spec ['k'] (S := ['a', ',', 'b', '/', 'c']) (by decide +kernel)
  refine ⟨g, hg, fun n hn => ?_⟩
  have := find_agrees_iff (by decide +kernel) (.uinit hg) hn (x := ['c']) (by rw [hel]; decide)
  rwa [hel] at this

/-- After `uinit k a,b`, `find a` replies `ab`. -/
theorem find_disagrees : ∃ g, uinitGraph ['k'] ['a', ',', 'b'] = .ok g ∧
    Reachable ['k'] ['a', ',', 'b'] g ∧ umembersText g = ['a', ',', 'b'] ∧ findText g ['a'] = .ok ['a', 'b'] ∧
    ∀ n, getUfs n ['k'] = .ok (some g) → ¬ FindAgrees n ['k'] ['a'] := by
  refine exists_ok_imp (P := fun g => umembersText g = ['a', ',', 'b'] ∧
    findText g ['a'] = .ok ['a', 'b']) (by decide +kernel) ?_
  rintro g hg ⟨hu, hf⟩
  refine ⟨.uinit hg, hu, hf, ?_⟩
  rintro n hn ⟨u, seg, hu', hseg, -, hf'⟩
  rw [umembersCommand_eq hn, hu] at hu'
  rw [findCommand_eq hn, hf] at hf'
  cases hu'
  cases hf'
  exact absurd hseg (by decide +kernel)

end UfsRedis
