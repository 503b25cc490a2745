import UfsRedis.Ufs.Control
import UfsRedis.Ufs.GraphPartition
import UfsRedis.Lib.SimpleSorts

/-!
# Queries: `umembersCommand` and `findCommand`

Both read the graph of a key, and sort the names of a class by their vertices with `quickSort`.

* `sorts_agree`: `quickSort`, `insertSort` and `bubbleSort` sort alike;
* `classOf E p x`: the class of `x`, in the order of the elements `E`;
* `GraphShows.memberText_eq`, `GraphShows.findText_eq`: what is written for a class;
* `sameText_iff`: two graphs of the same elements give the same replies iff they denote the same
  partition.
-/

namespace UfsRedis

open List Lib CudGraph

/-- `locateVex(ufs,e)` as a number, which is -1 for a name that does not exist. -/
def vexKey (g : CudGraph) (e : Sds) : Int :=
  match locateVex g e with
  | some i => i
  | none => -1

/-- `quickSort(ufs,list,0,len-1)`. -/
def quickSort (g : CudGraph) (list : List Sds) : List Sds :=
  Lib.quickSort (vexKey g) list.length list 0 list.length

/-- `insertSort(ufs,list,len)`. -/
def insertSort (g : CudGraph) (list : List Sds) : List Sds := Lib.insertSort (vexKey g) list

/-- `bubbleSort(ufs,list,len)`. -/
def bubbleSort (g : CudGraph) (list : List Sds) : List Sds := Lib.bubbleSort (vexKey g) list

/-- The names of the adjacency list of vertex `i`, with commas between them. -/
def edgesText (g : CudGraph) (i : Nat) : Sds := sdsjoin ((g.adj i).map g.name) ','

/-- What `umembersCommand` writes for the class of vertex `i`. -/
def memberText (g : CudGraph) (i : Nat) : Sds :=
  let list := g.name i ++ if g.adj i ≠ [] then ',' :: edgesText g i else []
  sdsjoin (quickSort g (sdssplit list ',')) ','

/-- The reply of `umembersCommand`, for the graph of the key. -/
def umembersText (g : CudGraph) : Sds := writeClasses g (memberText g)

/-- The reply of `findCommand`, for the graph of the key. The names are written without commas. -/
def findText (g : CudGraph) (x : Sds) : Except Fault Sds := do
  let i ← vex (locateVex g x)
  let list := x ++ ',' :: edgesText g i
  .ok (quickSort g (sdssplit list ',')).flatten

/-- The name of the command `umembers`. -/
def umembersCmd : Sds := ['u', 'm', 'e', 'm', 'b', 'e', 'r', 's']

/-- The name of the command `find`. -/
def findCmd : Sds := ['f', 'i', 'n', 'd']

/-- `umembersCommand(c)`: `umembers key`. -/
def umembersCommand (n : Node) (argv : List Sds) : Except Fault Sds := do
  let g ← deref (← getUfs n (← arg argv 1))
  .ok (umembersText g)

/-- `findCommand(c)`: `find x key`. -/
def findCommand (n : Node) (argv : List Sds) : Except Fault Sds := do
  let g ← deref (← getUfs n (← arg argv 2))
  findText g (← arg argv 1)

section

variable {n : Node} {key : Sds} {g : CudGraph}

theorem umembersCommand_eq (hg : getUfs n key = .ok (some g)) :
    umembersCommand n [umembersCmd, key] = .ok (umembersText g) := by
  have hkey : arg [umembersCmd, key] 1 = .ok key := rfl
  rw [umembersCommand, hkey, ok_bind, hg, ok_bind, deref_some, ok_bind]

theorem findCommand_eq (hg : getUfs n key = .ok (some g)) (x : Sds) :
    findCommand n [findCmd, x, key] = findText g x := by
  have hkey : arg [findCmd, x, key] 2 = .ok key := rfl
  have hx : arg [findCmd, x, key] 1 = .ok x := rfl
  rw [findCommand, hkey, ok_bind, hg, ok_bind, deref_some, ok_bind, hx, ok_bind]

end

/-! ## Classes in order -/

open Classical in
/-- The class of `x`, in the order of `E`. -/
noncomputable def classOf (E : List Sds) (p : Setoid Sds) (x : Sds) : List Sds :=
  E.filter fun y => p x y

variable {E : List Sds} {g g' : CudGraph} {i : Nat} {x : Sds}

section

variable {p : Setoid Sds}

theorem mem_classOf {y} : y ∈ classOf E p x ↔ y ∈ E ∧ p x y := by
  simp [classOf]

theorem vexKey_name (h : g.names.Nodup) (hi : i < g.dlist.length) : vexKey g (g.name i) = i := by
  rw [vexKey, locateVex_name h hi]

theorem sorted_names (h : g.names.Nodup) :
    g.names.Pairwise fun x y => vexKey g x < vexKey g y := by
  rw [pairwise_iff_getElem]
  intro i j hi hj hij
  have hget : ∀ k (hk : k < g.names.length), g.names[k] = g.name k := fun k hk => by
    rw [name_eq_getD, getD_eq_getElem _ _ hk]
  rw [length_names] at hi hj
  rw [hget, hget, vexKey_name h hi, vexKey_name h hj]
  omega

variable (h : GraphShows E g p)
include h

theorem GraphShows.nodup_classOf (x : Sds) : (classOf E p x).Nodup := h.nodup.filter _

theorem GraphShows.sorted : E.Pairwise fun x y => vexKey g x < vexKey g y :=
  h.names ▸ sorted_names h.nodup_names

theorem GraphShows.sorted_classOf (x : Sds) :
    (classOf E p x).Pairwise fun x y => vexKey g x < vexKey g y :=
  h.sorted.sublist filter_sublist

theorem GraphShows.perm_classOf (hi : i < g.dlist.length) :
    ((vertexClass g i).map g.name).Perm (classOf E p (g.name i)) := by
  have hlt : ∀ k ∈ vertexClass g i, k < g.dlist.length := by
    intro k hk
    rcases mem_vertexClass.mp hk with rfl | hk
    · exact hi
    · exact h.cliques.inRange hk
  have hnd : ((vertexClass g i).map g.name).Nodup := by
    refine List.Nodup.map_on (fun a ha b hb hab => ?_) ?_
    · exact name_inj h.nodup_names (hlt a ha) (hlt b hb) hab
    · exact nodup_cons.mpr ⟨h.cliques.irrefl i, h.cliques.nodup i⟩
  refine (perm_ext_iff_of_nodup hnd (h.nodup_classOf _)).mpr fun y => ?_
  rw [mem_map, mem_classOf, ← h.partition]
  constructor
  · rintro ⟨k, hk, rfl⟩
    exact ⟨h.names ▸ name_mem (hlt k hk), (partition_name h.cliques h.nodup_names hi (hlt k hk)).mpr
      (mem_vertexClass.mp hk)⟩
  rintro ⟨hy, hxy⟩
  obtain ⟨k, hk, rfl, -⟩ := h.exists_vex hy
  exact ⟨k, mem_vertexClass.mpr ((partition_name h.cliques h.nodup_names hi hk).mp hxy), rfl⟩

theorem GraphShows.quickSort_class (hi : i < g.dlist.length) :
    quickSort g (sdssplit (sdsjoin ((vertexClass g i).map g.name) ',') ',') =
      classOf E p (g.name i) := by
  rw [sdssplit_sdsjoin (fun x hx => (h.nameOk_class hi hx).2.1) fun x hx => (h.nameOk_class hi hx).1]
  exact quickSort_eq le_rfl (h.perm_classOf hi) (h.sorted_classOf _)

theorem GraphShows.memberText_eq (hi : i < g.dlist.length) :
    memberText g i = sdsjoin (classOf E p (g.name i)) ',' := by
  have hlist : (g.name i ++ if g.adj i ≠ [] then ',' :: edgesText g i else []) =
      sdsjoin ((vertexClass g i).map g.name) ',' := by
    rw [vertexClass, map_cons]
    by_cases hadj : g.adj i = []
    · simp [hadj]
    · rw [if_pos hadj, sdsjoin_cons _ (by simpa using hadj), edgesText]
  rw [memberText, hlist, h.quickSort_class hi]

theorem GraphShows.findText_eq (hx : x ∈ E) : findText g x = .ok (classOf E p x).flatten := by
  obtain ⟨i, hi, rfl, hloc⟩ := h.exists_vex hx
  rw [findText, hloc, vex_some, ok_bind]
  by_cases hadj : g.adj i = []
  · -- an element that is alone is followed by a comma, and an empty name is sorted to the front
    have hok := h.nameOk _ hx
    have hsplit : sdssplit (g.name i ++ ',' :: edgesText g i) ',' = [g.name i, []] := by
      have hjoin : g.name i ++ ',' :: edgesText g i = [','].intercalate [g.name i, []] := by
        simp [edgesText, hadj]
      rw [sdssplit, if_neg (by simp), hjoin]
      exact splitOn_intercalate ',' (by simpa using hok.2.1) (by simp)
    have hclass : classOf E p (g.name i) = [g.name i] := by
      have hperm := h.perm_classOf hi
      rw [vertexClass, hadj] at hperm
      exact perm_singleton.mp hperm.symm
    have hempty : vexKey g [] = -1 := by
      have : locateVex g [] = none := by
        rw [locateVex, findIdx?_eq_none_iff]
        intro v hv
        have hname : v.data ∈ g.names := mem_map_of_mem hv
        simpa using (h.nameOk _ (h.names ▸ hname)).1
      rw [vexKey, this]
    have hsort : quickSort g [g.name i, []] = [[], g.name i] := by
      refine quickSort_eq le_rfl (.swap _ _ _) ?_
      simp only [pairwise_cons, mem_singleton, forall_eq, not_mem_nil, IsEmpty.forall_iff,
        implies_true, List.Pairwise.nil, and_true, hempty, vexKey_name h.nodup_names hi]
      omega
    simp only [hsplit, hsort, hclass, flatten_cons, nil_append]
  have hlist : g.name i ++ ',' :: edgesText g i = sdsjoin ((vertexClass g i).map g.name) ',' := by
    rw [vertexClass, map_cons, sdsjoin_cons _ (by simpa using hadj), edgesText]
  simp only [hlist, h.quickSort_class hi]

end

/-! ## Replies and partitions -/

variable {p p' : Setoid Sds}

section

variable (h : GraphShows E g p)
include h

theorem GraphShows.skipped_iff_partition (hi : i < g.dlist.length) :
    skipped g i = true ↔ ∃ j < i, p (g.name i) (g.name j) := by
  rw [skipped_iff, ← h.partition]
  refine exists_congr fun j => and_congr_right fun hj => ?_
  rw [partition_name h.cliques h.nodup_names hi (by omega), Conn, or_iff_right (by omega)]

theorem GraphShows.leaders_eq (h' : GraphShows E g' p) : leaders g = leaders g' := by
  have hlen : g'.dlist.length = g.dlist.length := h'.length_dlist.trans h.length_dlist.symm
  rw [leaders, leaders, hlen]
  refine filter_congr fun i hi => ?_
  rw [mem_range] at hi
  have hname : ∀ j, g'.name j = g.name j := name_congr (h'.names.trans h.names.symm)
  rw [Bool.not_eq_eq_eq_not, Bool.not_not, Bool.eq_iff_iff, h.skipped_iff_partition hi,
    h'.skipped_iff_partition (hlen ▸ hi)]
  simp only [hname]

theorem GraphShows.classOf_ne_nil (hi : i < g.dlist.length) : classOf E p (g.name i) ≠ [] := by
  refine ne_nil_of_mem (a := g.name i) (mem_classOf.mpr ⟨?_, p.refl' _⟩)
  rw [← h.names]
  exact name_mem hi

theorem GraphShows.memberText_ne_nil (hi : i < g.dlist.length) : memberText g i ≠ [] := by
  rw [h.memberText_eq hi]
  exact sdsjoin_eq_nil (h.classOf_ne_nil hi) fun x hx => (h.nameOk x (mem_classOf.mp hx).1).1

theorem GraphShows.umembersText_congr (h' : GraphShows E g' p) :
    umembersText g = umembersText g' := by
  have hlen : g'.dlist.length = g.dlist.length := h'.length_dlist.trans h.length_dlist.symm
  have htext : ∀ i < g.dlist.length, memberText g i = memberText g' i := by
    intro i hi
    rw [h.memberText_eq hi, h'.memberText_eq (hlen ▸ hi), name_congr (h'.names.trans h.names.symm)]
  rw [umembersText, umembersText]
  by_cases hone : g.dlist.length = 1
  · rw [writeClasses_single g _ hone, writeClasses_single g' _ (hlen.trans hone),
      htext 0 (by omega)]
  rw [writeClasses_join g hone fun i hi => h.memberText_ne_nil (mem_leaders.mp hi).1,
    writeClasses_join g' (by rwa [hlen]) fun i hi => h'.memberText_ne_nil (mem_leaders.mp hi).1,
    h.leaders_eq h']
  congr 1
  refine map_congr_left fun i hi => htext i ?_
  rw [← hlen]
  exact (mem_leaders.mp hi).1

theorem GraphShows.perm_flatMap_classOf : ((leaders g).flatMap fun i => classOf E p (g.name i)).Perm
      ((leaders g).flatMap fun i => (vertexClass g i).map g.name) :=
  List.Perm.flatMap_left _ fun _ hi => (h.perm_classOf (mem_leaders.mp hi).1).symm

end

/-- The classes that `umembers` writes. -/
noncomputable def GraphShows.sortedClasses (h : GraphShows E g p) : Classes where
  toList := (leaders g).map fun i => classOf E p (g.name i)
  ne c hc := by
    obtain ⟨i, hi, rfl⟩ := List.mem_map.mp hc
    exact h.classOf_ne_nil (mem_leaders.mp hi).1
  names c hc x hx := by
    obtain ⟨i, -, rfl⟩ := List.mem_map.mp hc
    exact h.nameOk x (mem_classOf.mp hx).1
  nodup := h.perm_flatMap_classOf.nodup_iff.mpr h.classes.nodup

section

variable (h : GraphShows E g p)
include h

theorem GraphShows.partition_sortedClasses : h.sortedClasses.partition = p := by
  refine Eq.trans ?_ h.partition_classes
  ext x y
  rw [Classes.partition_iff, Classes.partition_iff]
  refine or_congr_right ?_
  simp only [InClass, sortedClasses, classes, mem_map, exists_exists_and_eq_and]
  refine exists_congr fun i => and_congr_right fun hi => ?_
  have hperm := h.perm_classOf (mem_leaders.mp hi).1
  rw [← hperm.mem_iff, ← hperm.mem_iff, mem_map, mem_map]

theorem GraphShows.elements_sortedClasses : h.sortedClasses.elements.Perm E :=
  h.perm_flatMap_classOf.trans h.elements_classes

theorem GraphShows.umembersText_classes (hE : E.length ≠ 1) :
    umembersText g = h.sortedClasses.render := by
  rw [umembersText, writeClasses_join g (by rwa [h.length_dlist]) fun i hi =>
    h.memberText_ne_nil (mem_leaders.mp hi).1, Classes.render, render, sortedClasses, map_map]
  congr 1
  exact map_congr_left fun i hi => h.memberText_eq (mem_leaders.mp hi).1

/-- **The reply of `umembers` denotes the partition** of a set of two or more elements. -/
theorem GraphShows.denote_umembersText (hE : E.length ≠ 1) : denote (umembersText g) = p := by
  rw [h.umembersText_classes hE, Classes.denote_render, h.partition_sortedClasses]

end

theorem classOf_single (p : Setoid Sds) (x : Sds) : classOf [x] p x = [x] :=
  filter_eq_self.mpr fun y hy => by simp [mem_singleton.mp hy]

theorem GraphShows.umembersText_single (h : GraphShows [x] g p) :
    umembersText g = sdsrange x 0 ((x.length : Int) - 2) := by
  have hname : g.name 0 = x := by rw [name_eq_getD, h.names]; rfl
  rw [umembersText, writeClasses_single g _ h.length_dlist,
    h.memberText_eq (by rw [h.length_dlist]; exact Nat.one_pos), hname, classOf_single,
    sdsjoin_singleton]

theorem GraphShows.length_umembersText (h : GraphShows E g p) :
    (umembersText g).length = (UfsRedis.updateVerticeUfs g).length := by
  by_cases hE : E.length = 1
  · obtain ⟨x, rfl⟩ := length_eq_one_iff.mp hE
    rw [h.umembersText_single, h.updateVerticeUfs_single]
  rw [h.umembersText_classes hE, h.updateVerticeUfs_classes hE]
  exact Classes.length_render_eq (h.elements_sortedClasses.trans h.elements_classes.symm)

/-- **The replies of the queries are the same iff the partitions are.** -/
theorem sameText_iff (h : GraphShows E g p) (h' : GraphShows E g' p') :
    (umembersText g = umembersText g' ∧ ∀ x ∈ E, findText g x = findText g' x) ↔ p = p' := by
  constructor
  · rintro ⟨htext, -⟩
    by_cases hE : E.length = 1
    · rw [h.eq_bot_of_single hE, h'.eq_bot_of_single hE]
    · rw [← h.denote_umembersText hE, htext, h'.denote_umembersText hE]
  rintro rfl
  refine ⟨h.umembersText_congr h', fun x hx => ?_⟩
  rw [h.findText_eq hx, h'.findText_eq hx]

end UfsRedis
