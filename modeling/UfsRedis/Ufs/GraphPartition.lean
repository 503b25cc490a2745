import UfsRedis.Ufs.GraphLemmas
import UfsRedis.Ot.Tp1

/-!
# The graph as a partition of the names

`CudGraph.partition g` is the partition that the graph denotes, and `GraphShows E g p` says that `g`
is a graph of the elements `E` that denotes `p`.

* `GraphShows.unionProc`, `GraphShows.splitProc`: the operations act on it as `UfsOp.act` does;
* `GraphShows.updateVerticeUfs`: the content that is written for the graph shows the same partition;
* `GraphShows.uinitGraph`: `uinit` makes the graph of its argument.
-/

namespace UfsRedis

open List Lib Partition CudGraph

/-- The partition of the names: the classes are the connected vertices. -/
def CudGraph.partition (g : CudGraph) : Setoid Sds :=
  Relation.EqvGen.setoid fun x y =>
    ∃ u v, u < g.dlist.length ∧ v < g.dlist.length ∧ Conn g u v ∧ g.name u = x ∧ g.name v = y

variable {x y : Sds} {E : List Sds} {g : CudGraph} {p : Setoid Sds}

section

variable {g h : CudGraph} {u v : Nat}

section

variable (hg : Cliques g) (hnd : g.names.Nodup)
include hg hnd

theorem partition_graph_iff :
    g.partition x y ↔ x = y ∨ ∃ u v, u < g.dlist.length ∧ v < g.dlist.length ∧ Conn g u v ∧
      g.name u = x ∧ g.name v = y := by
  refine eqvGen_iff ?_ ?_
  · rintro x y ⟨u, v, hu, hv, huv, hx, hy⟩
    exact ⟨v, u, hv, hu, hg.conn_symm huv, hy, hx⟩
  rintro x y z ⟨u, v, hu, hv, huv, hx, hy⟩ ⟨v', w, hv', hw, hvw, hy', hz⟩
  obtain rfl := name_inj hnd hv hv' (hy.trans hy'.symm)
  exact ⟨u, w, hu, hw, hg.conn_trans huv hvw, hx, hz⟩

theorem partition_name (hu : u < g.dlist.length)
    (hv : v < g.dlist.length) : g.partition (g.name u) (g.name v) ↔ Conn g u v := by
  rw [partition_graph_iff hg hnd]
  constructor
  · rintro (h | ⟨u', v', hu', hv', huv, hx, hy⟩)
    · exact .inl (name_inj hnd hu hv h)
    obtain rfl := name_inj hnd hu' hu hx
    obtain rfl := name_inj hnd hv' hv hy
    exact huv
  · exact fun huv => .inr ⟨u, v, hu, hv, huv, rfl, rfl⟩

theorem mem_names_of_partition (h : g.partition x y) (hne : x ≠ y) : x ∈ g.names ∧ y ∈ g.names := by
  rcases (partition_graph_iff hg hnd).mp h with h | ⟨u, v, hu, hv, -, rfl, rfl⟩
  · exact absurd h hne
  · exact ⟨name_mem hu, name_mem hv⟩

/-- A partition of the names is given by its values on the vertices. -/
theorem partition_graph_eq (hq : ∀ x y, q x y → x ≠ y → x ∈ g.names ∧ y ∈ g.names)
    (h : ∀ u v, u < g.dlist.length → v < g.dlist.length → (Conn g u v ↔ q (g.name u) (g.name v))) :
    g.partition = q := by
  ext x y
  by_cases hxy : x = y
  · subst hxy
    exact ⟨fun _ => q.refl' x, fun _ => g.partition.refl' x⟩
  constructor
  · intro hp
    obtain ⟨hx, hy⟩ := mem_names_of_partition hg hnd hp hxy
    obtain ⟨u, hu, rfl⟩ := exists_name hx
    obtain ⟨v, hv, rfl⟩ := exists_name hy
    exact (h u v hu hv).mp ((partition_name hg hnd hu hv).mp hp)
  intro hp
  obtain ⟨hx, hy⟩ := hq x y hp hxy
  obtain ⟨u, hu, rfl⟩ := exists_name hx
  obtain ⟨v, hv, rfl⟩ := exists_name hy
  exact (partition_name hg hnd hu hv).mpr ((h u v hu hv).mpr hp)

end

theorem partition_of_mem_adj (hu : u < g.dlist.length) (hv : v < g.dlist.length)
    (h : v ∈ g.adj u) : g.partition (g.name u) (g.name v) :=
  .rel _ _ ⟨u, v, hu, hv, .inr h, rfl, rfl⟩

theorem partition_eq_bot (h : ∀ u, g.adj u = []) : g.partition = ⊥ := by
  rw [eq_bot_iff]
  refine Setoid.eqvGen_le ?_
  rintro x y ⟨u, v, -, -, huv | huv, rfl, rfl⟩
  · rw [huv]
  rw [h] at huv
  exact absurd huv not_mem_nil

theorem partition_createLinks (hg : Cliques g) (hnd : g.names.Nodup)
    (hi : i < g.dlist.length) (hj : j < g.dlist.length) :
    (createLinks g i j).partition = glue g.partition {g.name i, g.name j} := by
  obtain ⟨hc, hn, hconn⟩ := createLinks_spec hg hi hj
  have hlen : (createLinks g i j).dlist.length = g.dlist.length := by
    rw [← length_names, hn, length_names]
  have hmeets : ∀ x, Meets g.partition {g.name i, g.name j} x ↔
      g.partition x (g.name i) ∨ g.partition x (g.name j) := by
    intro x
    simp [Meets]
  have hmem : ∀ x, Meets g.partition {g.name i, g.name j} x → x ∈ g.names := by
    have key : ∀ x k, k < g.dlist.length → g.partition x (g.name k) → x ∈ g.names := by
      intro x k hk h
      by_cases hne : x = g.name k
      · rw [hne]; exact name_mem hk
      · exact (mem_names_of_partition hg hnd h hne).1
    intro x hx
    rcases (hmeets x).mp hx with h | h
    · exact key x i hi h
    · exact key x j hj h
  apply partition_graph_eq hc (by rw [hn]; exact hnd)
  · intro x y hxy hne
    rw [hn]
    rcases glue_iff.mp hxy with h | ⟨hx, hy⟩
    · exact mem_names_of_partition hg hnd h hne
    · exact ⟨hmem x hx, hmem y hy⟩
  intro u v hu hv
  rw [hlen] at hu hv
  rw [hconn, name_congr hn, name_congr hn, glue_iff, hmeets, hmeets, partition_name hg hnd hu hv,
    partition_name hg hnd hu hi, partition_name hg hnd hu hj, partition_name hg hnd hv hi,
    partition_name hg hnd hv hj]

theorem CutTo.partition (hg : Cliques g) (hnd : g.names.Nodup) (hh : CutTo g T h) :
    h.partition = cut g.partition T := by
  have hlen : h.dlist.length = g.dlist.length := by rw [← length_names, hh.names, length_names]
  apply partition_graph_eq (hh.cliques hg) (by rw [hh.names]; exact hnd)
  · intro x y hxy hne
    rw [hh.names]
    exact mem_names_of_partition hg hnd (cut_iff.mp hxy).1 hne
  intro u v hu hv
  rw [hlen] at hu hv
  rw [name_congr hh.names, name_congr hh.names, cut_iff, partition_name hg hnd hu hv]
  unfold Conn
  rw [hh.adj]
  constructor
  · rintro (rfl | h)
    · exact ⟨.inl rfl, Iff.rfl⟩
    · exact ⟨.inr h.1, h.2⟩
  rintro ⟨rfl | h, hiff⟩
  · exact .inl rfl
  · exact .inr ⟨h, hiff⟩

end

/-- `g` is a graph of the elements `E` that denotes the partition `p`. -/
structure GraphShows (E : List Sds) (g : CudGraph) (p : Setoid Sds) : Prop where
  names : g.names = E
  nodup : E.Nodup
  nameOk : ∀ x ∈ E, NameOk x
  cliques : Cliques g
  partition : g.partition = p

section

/-- The same without conditions on the names: they only differ. -/
structure GraphHas (E : List Sds) (g : CudGraph) (p : Setoid Sds) : Prop where
  names : g.names = E
  nodup : E.Nodup
  cliques : Cliques g
  partition : g.partition = p

section

variable (h : GraphHas E g p)
include h

theorem GraphHas.nodup_names : g.names.Nodup := h.names ▸ h.nodup

theorem GraphHas.exists_vex (hx : x ∈ E) :
    ∃ i, i < g.dlist.length ∧ g.name i = x ∧ locateVex g x = some i := by
  obtain ⟨i, hi, rfl⟩ := exists_name (h.names ▸ hx : x ∈ g.names)
  exact ⟨i, hi, rfl, locateVex_name h.nodup_names hi⟩

theorem GraphHas.createLinksNames (hx : x ∈ E) (hy : y ∈ E) :
    ∃ g', createLinksNames g x y = .ok g' ∧ GraphHas E g' (glue p {x, y}) := by
  obtain ⟨i, hi, rfl, hli⟩ := h.exists_vex hx
  obtain ⟨j, hj, rfl, hlj⟩ := h.exists_vex hy
  obtain ⟨hc, hn, -⟩ := createLinks_spec h.cliques hi hj
  refine ⟨createLinks g i j, by simp [UfsRedis.createLinksNames, hli, hlj],
    ⟨hn.trans h.names, h.nodup, hc, ?_⟩⟩
  rw [partition_createLinks h.cliques h.nodup_names hi hj, h.partition]

theorem CutTo.graphHas (hcut : CutTo g T g') : GraphHas E g' (cut p T) :=
  ⟨hcut.names.trans h.names, h.nodup, hcut.cliques h.cliques,
    by rw [hcut.partition h.cliques h.nodup_names, h.partition]⟩

end

theorem GraphShows.has (h : GraphShows E g p) : GraphHas E g p :=
  ⟨h.names, h.nodup, h.cliques, h.partition⟩

theorem GraphHas.shows (h : GraphHas E g p) (hn : ∀ x ∈ E, NameOk x) : GraphShows E g p :=
  ⟨h.names, h.nodup, hn, h.cliques, h.partition⟩

variable (h : GraphShows E g p)
include h

theorem GraphShows.nodup_names : g.names.Nodup := h.has.nodup_names

theorem GraphShows.exists_vex (hx : x ∈ E) :
    ∃ i, i < g.dlist.length ∧ g.name i = x ∧ locateVex g x = some i := h.has.exists_vex hx

theorem GraphShows.existElement : existElement g x = decide (x ∈ E) := by
  rw [← h.names, CudGraph.names, UfsRedis.existElement, Bool.eq_iff_iff]
  simp

theorem GraphShows.createLinksNames (hx : x ∈ E) (hy : y ∈ E) :
    ∃ g', createLinksNames g x y = .ok g' ∧ GraphShows E g' (glue p {x, y}) := by
  obtain ⟨g', hr, hg'⟩ := h.has.createLinksNames hx hy
  exact ⟨g', hr, hg'.shows h.nameOk⟩

theorem GraphShows.execOp (hop : OpOk E op) :
    ∃ g', execOp g op = .ok g' ∧ GraphShows E g' (op.act p) ∧ g'.key = g.key := by
  have hname : ∀ {x}, ArgOk E x → NameOk x := fun hx =>
    hx.elim (h.nameOk _) fun h => h ▸ star_name_ok
  cases hop with
  | @union a b ha hb =>
    by_cases hs : a = star ∨ b = star
    · refine ⟨g, by simp [UfsRedis.execOp, unionProc, unionOp, hs], ?_, rfl⟩
      rw [act_union_star hs]
      exact h
    obtain ⟨has, hbs⟩ := not_or.mp hs
    obtain ⟨g', hr, hg'⟩ := h.createLinksNames (ha.resolve_right has) (hb.resolve_right hbs)
    refine ⟨g', ?_, ?_, (sameVertices_createLinksNames hr).key⟩
    · simp [UfsRedis.execOp, unionProc, unionOp, has, hbs, isSet_eq_false (hname ha),
        isSet_eq_false (hname hb), hr]
    · rwa [act_union (hname ha) (hname hb) has hbs]
  | @split a ha =>
    have hset := isSet_eq_false (hname (.inl ha))
    by_cases has : a = star
    · subst has
      exact ⟨g, rfl, by rw [act_split_star]; exact h, rfl⟩
    obtain ⟨i, hi, rfl, -⟩ := h.exists_vex ha
    obtain ⟨g', hr, hcut⟩ := removeAdjEdge_single h.cliques.toSimple h.nodup_names hi
    refine ⟨g', by simp [UfsRedis.execOp, splitProc, splitOp, hset, has, hr], ?_,
      (sameVertices_removeAdjEdge hr).key⟩
    rw [act_split (hname (.inl ha)) has]
    exact (hcut.graphHas h.has).shows h.nameOk

end

/-! ## `updateVerticeUfs` -/

section

def leaders (g : CudGraph) : List Nat := (List.range g.dlist.length).filter (!skipped g ·)

/-- The class of a vertex, as `updateVerticeUfs` lists it. -/
def vertexClass (g : CudGraph) (i : Nat) : List Nat := i :: g.adj i

variable {i k : Nat}

theorem skipped_iff : skipped g i = true ↔ ∃ j < i, j ∈ g.adj i := by
  simp [skipped, existEdge]

theorem mem_leaders : i ∈ leaders g ↔ i < g.dlist.length ∧ ∀ j < i, j ∉ g.adj i := by
  simp only [leaders, mem_filter, mem_range, Bool.not_eq_true', ← Bool.not_eq_true, skipped_iff]
  simp

theorem mem_vertexClass : k ∈ vertexClass g i ↔ Conn g i k := by
  simp [vertexClass, Conn, eq_comm]

theorem leaders_unique (hg : Cliques g) (hi : i ∈ leaders g) (hj : j ∈ leaders g)
    (h : Conn g i j) : i = j := by
  rcases h with h | h
  · exact h
  rcases lt_trichotomy i j with hlt | heq | hlt
  · exact absurd (hg.symm h) ((mem_leaders.mp hj).2 i hlt)
  · exact heq
  · exact absurd h ((mem_leaders.mp hi).2 j hlt)

theorem exists_leader (hg : Cliques g) (hk : k < g.dlist.length) : ∃ i ∈ leaders g, Conn g i k := by
  induction k using Nat.strong_induction_on with
  | _ k ih =>
    by_cases h : ∃ j < k, j ∈ g.adj k
    · obtain ⟨j, hjk, hj⟩ := h
      obtain ⟨i, hi, hij⟩ := ih j hjk (hg.inRange hj)
      exact ⟨i, hi, hg.conn_trans hij (.inr (hg.symm hj))⟩
    · exact ⟨k, mem_leaders.mpr ⟨hk, by simpa using h⟩, .refl g k⟩

theorem nodup_leaders : (leaders g).Nodup := nodup_range.filter _

theorem leaders_perm (hg : Cliques g) :
    ((leaders g).map (vertexClass g)).flatten.Perm (range g.dlist.length) := by
  have hnd : ((leaders g).map (vertexClass g)).flatten.Nodup := by
    refine nodup_flatten.mpr ⟨?_, ?_⟩
    · simp only [mem_map, forall_exists_index, and_imp, forall_apply_eq_imp_iff₂]
      exact fun i _ => nodup_cons.mpr ⟨hg.irrefl i, hg.nodup i⟩
    rw [pairwise_map]
    refine List.Pairwise.imp_of_mem ?_ nodup_leaders
    intro i j hi hj hne k hki hkj
    rw [mem_vertexClass] at hki hkj
    exact hne (leaders_unique hg hi hj (hg.conn_trans hki (hg.conn_symm hkj)))
  refine (perm_ext_iff_of_nodup hnd nodup_range).mpr fun k => ?_
  simp only [mem_flatten, mem_map, exists_exists_and_eq_and, mem_vertexClass, mem_range]
  constructor
  · rintro ⟨i, hi, rfl | hik⟩
    · exact (mem_leaders.mp hi).1
    · exact hg.inRange hik
  · exact exists_leader hg

theorem range_map_name (g : CudGraph) : (range g.dlist.length).map g.name = g.names := by
  apply ext_getElem
  · simp [length_names]
  intro i h1 h2
  rw [getElem_map, getElem_range, name_eq_getD, getD_eq_getElem _ _ h2]

theorem GraphShows.nameOk_class (h : GraphShows E g p)
    (hi : i < g.dlist.length) (hx : x ∈ (vertexClass g i).map g.name) : NameOk x := by
  obtain ⟨k, hk, rfl⟩ := mem_map.mp hx
  have hkn : k < g.dlist.length := by
    rcases mem_vertexClass.mp hk with rfl | hk
    · exact hi
    · exact h.cliques.inRange hk
  exact h.nameOk _ (h.names ▸ name_mem hkn)

def GraphShows.classes (h : GraphShows E g p) : Classes where
  toList := (leaders g).map fun i => (vertexClass g i).map g.name
  ne := by simp [vertexClass]
  names c hc x hx := by
    obtain ⟨i, hi, rfl⟩ := List.mem_map.mp hc
    exact h.nameOk_class (mem_leaders.mp hi).1 hx
  nodup := by
    have hp := (leaders_perm h.cliques).map g.name
    rw [List.map_flatten, List.map_map, range_map_name] at hp
    exact hp.nodup_iff.mpr h.nodup_names

theorem GraphShows.elements_classes (h : GraphShows E g p) : h.classes.elements.Perm E := by
  have hp := (leaders_perm h.cliques).map g.name
  rw [map_flatten, map_map, range_map_name, h.names] at hp
  exact hp

theorem GraphShows.partition_classes (h : GraphShows E g p) : h.classes.partition = p := by
  refine (partition_graph_eq h.cliques h.nodup_names ?_ ?_).symm.trans h.partition
  · intro x y hxy hne
    rcases h.classes.partition_iff.mp hxy with hxy | ⟨c, hc, hx, hy⟩
    · exact absurd hxy hne
    rw [h.names, ← h.elements_classes.mem_iff, ← h.elements_classes.mem_iff]
    exact ⟨h.classes.mem_elements hc hx, h.classes.mem_elements hc hy⟩
  intro u v hu hv
  obtain ⟨i, hi, hiu⟩ := exists_leader h.cliques hu
  have hc : (vertexClass g i).map g.name ∈ h.classes.toList := mem_map.mpr ⟨i, hi, rfl⟩
  have hmem : ∀ w, w < g.dlist.length → (g.name w ∈ (vertexClass g i).map g.name ↔ Conn g i w) := by
    intro w hw
    rw [mem_map]
    constructor
    · rintro ⟨w', hw', he⟩
      have hw'' : w' < g.dlist.length := by
        rcases mem_vertexClass.mp hw' with rfl | hw'
        · exact (mem_leaders.mp hi).1
        · exact h.cliques.inRange hw'
      obtain rfl := name_inj h.nodup_names hw'' hw he
      exact mem_vertexClass.mp hw'
    · exact fun hw' => ⟨w, mem_vertexClass.mpr hw', rfl⟩
  rw [← Setoid.comm', h.classes.partition_iff_mem hc ((hmem u hu).mpr hiu), hmem v hv]
  exact ⟨h.cliques.conn_trans hiu, h.cliques.conn_trans (h.cliques.conn_symm hiu)⟩

end

/-! ### The text -/

theorem sdstrim_comma (hx : x ≠ []) (hc : ',' ∉ x) : sdstrim (x ++ [',']) ',' = x := by
  obtain ⟨c, y, rfl⟩ := exists_cons_of_ne_nil hx
  have hne : c ≠ ',' := fun h => hc (by simp [h])
  have hlast : ∀ d l, (c :: y).reverse = d :: l → d ≠ ',' := by
    intro d l h hd
    refine hc (mem_reverse.mp ?_)
    rw [h, hd]
    simp
  rcases hr : (c :: y).reverse with _ | ⟨d, l⟩
  · simp at hr
  have hd := hlast d l hr
  rw [sdstrim, cons_append, dropWhile_cons_of_neg (by simpa using hne), ← cons_append,
    reverse_append, hr]
  simp only [reverse_cons, reverse_nil, nil_append, cons_append,
    dropWhile_cons, beq_self_eq_true, if_true, beq_iff_eq, hd, if_false]
  rw [← reverse_cons, ← hr, reverse_reverse]

theorem classText_eq (h : NameOk (g.name i)) :
    classText g i = sdsjoin ((vertexClass g i).map g.name) ',' := by
  simp only [classText, vertexClass, map_cons, sdsjoin_sdssplit]
  split
  · rename_i hne
    rw [sdsjoin_cons _ (by simpa using hne), append_assoc]
    rfl
  rename_i hne
  rw [sdstrim_comma h.1 h.2.1, not_not.mp hne]
  simp

theorem sdsjoin_concat (xs : List Sds) (x : Sds) (sep : Char) :
    sdsjoin (xs ++ [x]) sep = (xs.map (· ++ [sep])).flatten ++ x := by
  induction xs with
  | nil => simp
  | cons y xs ih => rw [cons_append, sdsjoin_cons y (by simp), ih]; simp

theorem flatten_filter (s : Nat → Bool) (t : Nat → Sds) (l : List Nat) :
    (l.map fun i => if s i then [] else t i).flatten = ((l.filter (!s ·)).map t).flatten := by
  induction l with
  | nil => rfl
  | cons i l ih =>
    by_cases h : s i = true <;> simp [h, ih]

theorem sdsrange_zero (h0 : 0 ≤ stop) (h : stop < S.length) :
    sdsrange S 0 stop = S.take (stop.toNat + 1) := by
  simp only [sdsrange]
  rw [if_neg (by omega), if_neg (by omega), if_neg (by omega), if_neg (by omega), if_neg (by omega),
    if_neg (by omega), if_neg (by omega)]
  simp only [Int.toNat_zero, drop_zero, Int.sub_zero]
  congr 1
  omega

theorem sdsrange_dropLast (c : Char) (hS : S ≠ []) :
    sdsrange (S ++ [c]) 0 (((S ++ [c]).length : Int) - 2) = S := by
  have hpos := length_pos_of_ne_nil hS
  have hlen : (S ++ [c]).length = S.length + 1 := by simp
  rw [sdsrange_zero (by omega) (by omega)]
  apply take_left'
  omega

/-- The content of a set of one element: its name without the last character, if that is not all
of it. -/
theorem sdsrange_name (hx : NameOk x) : NameOk (sdsrange x 0 ((x.length : Int) - 2)) := by
  obtain ⟨h0, hc, hs⟩ := hx
  have hpos := length_pos_of_ne_nil h0
  have htake : ∃ k, sdsrange x 0 ((x.length : Int) - 2) = x.take (k + 1) := by
    by_cases h1 : x.length = 1
    · obtain ⟨c, rfl⟩ := length_eq_one_iff.mp h1
      exact ⟨0, rfl⟩
    · exact ⟨_, sdsrange_zero (by omega) (by omega)⟩
  obtain ⟨k, hk⟩ := htake
  rw [hk]
  refine ⟨fun h => ?_, fun h => hc (mem_of_mem_take h), fun h => hs (mem_of_mem_take h)⟩
  rw [take_eq_nil_iff] at h
  exact h.elim (by omega) h0

/-- The text that the loop over the classes writes: those of the leaders, with a slash at the end if
the last vertex is not a leader. -/
theorem writeClasses_loop (g : CudGraph) (text : Nat → Sds) (hm : g.dlist.length = m + 1) :
    ((range (m + 1)).map fun i => if skipped g i then []
      else text i ++ if i ≠ m + 1 - 1 then ['/'] else []).flatten =
      sdsjoin ((leaders g).map text) '/' ++ if skipped g m then ['/'] else [] := by
  set L := (range m).filter (!skipped g ·) with hL
  have hinit : ((range m).map fun i => if skipped g i then []
      else text i ++ if i ≠ m + 1 - 1 then ['/'] else []).flatten =
      ((L.map text).map (· ++ ['/'])).flatten := by
    rw [hL, map_map, ← flatten_filter (skipped g) ((· ++ ['/']) ∘ text)]
    congr 1
    apply map_congr_left
    intro i hi
    have hi : i ≠ m + 1 - 1 := by
      have := mem_range.mp hi
      omega
    rw [if_pos hi]
    rfl
  rw [range_succ, map_append, flatten_append, hinit]
  by_cases hs : skipped g m = true
  · have hlead : leaders g = L := by
      simp [leaders, hm, range_succ, hs, hL]
    have h0 : 0 ∈ leaders g := mem_leaders.mpr ⟨by omega, by simp⟩
    obtain ⟨ys, y, hys⟩ : ∃ ys y, L = ys ++ [y] := by
      rw [hlead] at h0
      exact ⟨L.dropLast, L.getLast (ne_nil_of_mem h0), (dropLast_append_getLast _).symm⟩
    rw [hlead, hys]
    simp [hs, sdsjoin_concat]
  have hlead : leaders g = L ++ [m] := by
    simp [leaders, hm, range_succ, hs, hL]
  rw [hlead]
  simp [hs, sdsjoin_concat]

theorem writeClasses_join (g : CudGraph) (hlen : g.dlist.length ≠ 1)
    (htext : ∀ i ∈ leaders g, text i ≠ []) :
    writeClasses g text = sdsjoin ((leaders g).map text) '/' := by
  rcases hn : g.dlist.length with _ | m
  · simp [writeClasses, leaders, hn]
  have hskip : (leaders g).length + (range (m + 1)).countP (skipped g) = m + 1 := by
    have := length_eq_countP_add_countP (skipped g) (l := range (m + 1))
    rw [length_range, countP_eq_length_filter (p := fun a => ¬skipped g a)] at this
    rw [leaders, hn]
    simp only [decide_not, Bool.decide_eq_true] at this
    omega
  have h0 : 0 ∈ leaders g := mem_leaders.mpr ⟨by omega, by simp⟩
  simp only [writeClasses, hn, writeClasses_loop g text hn]
  rw [show m + 1 - 1 = m by omega]
  by_cases hs : skipped g m = true
  · -- the slash at the end is cut off
    rw [if_pos (.inr ⟨by omega, hs⟩), if_pos hs]
    refine sdsrange_dropLast '/' (sdsjoin_eq_nil (by simpa using ne_nil_of_mem h0) ?_)
    simpa using htext
  -- the first and the last vertex are leaders
  rw [if_neg, if_neg hs, append_nil]
  rintro (h1 | h1)
  · have hm' : m ∈ leaders g :=
      mem_leaders.mpr ⟨by omega, fun j hj hmem => hs (skipped_iff.mpr ⟨j, hj, hmem⟩)⟩
    have hone : (leaders g).length = 1 := by omega
    obtain ⟨a, ha⟩ := length_eq_one_iff.mp hone
    rw [ha, mem_singleton] at h0 hm'
    omega
  · exact hs h1.2

theorem writeClasses_single (g : CudGraph) (text : Nat → Sds) (hlen : g.dlist.length = 1) :
    writeClasses g text = sdsrange (text 0) 0 (((text 0).length : Int) - 2) := by
  have hs : skipped g 0 = false := by simp [skipped]
  simp [writeClasses, hlen, hs]

theorem GraphShows.render_classes (h : GraphShows E g p) :
    h.classes.render = sdsjoin ((leaders g).map (classText g)) '/' := by
  rw [Classes.render, render, GraphShows.classes, map_map]
  congr 1
  apply map_congr_left
  intro i hi
  have hi := (mem_leaders.mp hi).1
  exact (classText_eq (h.nameOk _ (h.names ▸ name_mem hi))).symm

theorem GraphShows.length_dlist (h : GraphShows E g p) : g.dlist.length = E.length := by
  rw [← length_names, h.names]

theorem GraphShows.updateVerticeUfs_classes (h : GraphShows E g p) (hE : E.length ≠ 1) :
    updateVerticeUfs g = h.classes.render := by
  rw [h.render_classes]
  refine writeClasses_join g (by rwa [h.length_dlist]) fun i hi => ?_
  have hi := (mem_leaders.mp hi).1
  rw [classText_eq (h.nameOk _ (h.names ▸ name_mem hi))]
  exact sdsjoin_eq_nil (by simp [vertexClass]) fun x hx => (h.nameOk_class hi hx).1

/-- The content of a set of one element lacks the last character of its name. -/
theorem GraphShows.updateVerticeUfs_single (h : GraphShows [x] g p) :
    updateVerticeUfs g = sdsrange x 0 ((x.length : Int) - 2) := by
  have hlen : g.dlist.length = 1 := h.length_dlist
  have hx : NameOk x := h.nameOk x (by simp)
  have hname : g.name 0 = x := by rw [name_eq_getD, h.names]; rfl
  have hadj : ∀ i, g.adj i = [] := by
    intro i
    rw [eq_nil_iff_forall_not_mem]
    intro k hk
    have h1 := lt_of_mem_adj hk
    have h2 := h.cliques.inRange hk
    have : k = i := by omega
    exact h.cliques.irrefl i (this ▸ hk)
  have htext : classText g 0 = x := by
    rw [classText_eq (hname ▸ hx), vertexClass, hadj]
    simp [hname]
  rw [updateVerticeUfs, writeClasses_single g _ hlen, htext]

theorem GraphShows.eq_bot_of_single (h : GraphShows E g p) (hE : E.length = 1) : p = ⊥ := by
  obtain ⟨x, rfl⟩ := length_eq_one_iff.mp hE
  rw [← h.partition, eq_bot_iff]
  intro a b hab
  rw [Setoid.bot_def]
  by_contra hne
  obtain ⟨ha, hb⟩ := mem_names_of_partition h.cliques h.nodup_names hab hne
  rw [h.names, mem_singleton] at ha hb
  exact hne (ha.trans hb.symm)

/-- **The content of a vertice shows the partition of the graph.** -/
theorem GraphShows.updateVerticeUfs (h : GraphShows E g p) : Shows E (updateVerticeUfs g) p := by
  by_cases hE : E.length = 1
  · obtain ⟨x, rfl⟩ := length_eq_one_iff.mp hE
    have hx : NameOk x := h.nameOk x (by simp)
    rw [h.updateVerticeUfs_single, h.eq_bot_of_single hE]
    exact .single rfl hx (sdsrange_name hx)
  rw [h.updateVerticeUfs_classes hE]
  have hs := Shows.classes h.classes h.elements_classes
  rwa [h.partition_classes] at hs

/-- **The graph is written faithfully.** For two or more vertices the content has every name once,
grouped into the classes of the graph, without an empty class or name, and it neither begins nor ends
with a separator. -/
theorem updateVerticeUfs_faithful (hg : Cliques g) (hnd : g.names.Nodup)
    (hn : ∀ x ∈ g.names, NameOk x) (htwo : 2 ≤ g.dlist.length) :
    (classesOf (UfsRedis.updateVerticeUfs g)).flatten.Perm g.names ∧
      (∀ u v, u < g.dlist.length → v < g.dlist.length →
        (InClass (classesOf (UfsRedis.updateVerticeUfs g)) (g.name u) (g.name v) ↔ Conn g u v)) ∧
      (∀ c ∈ classesOf (UfsRedis.updateVerticeUfs g), c ≠ [] ∧ ∀ x ∈ c, NameOk x) ∧
      ∀ d, (UfsRedis.updateVerticeUfs g).head? = some d ∨
        (UfsRedis.updateVerticeUfs g).getLast? = some d → d ≠ ',' ∧ d ≠ '/' := by
  have h : GraphShows g.names g g.partition := ⟨rfl, hnd, hn, hg, rfl⟩
  rw [h.updateVerticeUfs_classes (by rw [length_names]; omega), Classes.classesOf_render]
  refine ⟨h.elements_classes, fun u v hu hv => ?_, fun c hc => ⟨h.classes.ne c hc, h.classes.names c hc⟩,
    fun d hd => h.classes.render_ends hd⟩
  rw [← partition_name hg hnd hu hv]
  conv_rhs => rw [← h.partition_classes, Classes.partition_iff]
  -- a name is in a class with itself
  refine ⟨.inr, fun huv => huv.elim (fun heq => ?_) id⟩
  obtain ⟨c, hc, hxc⟩ := mem_flatten.mp (h.elements_classes.mem_iff.mpr (name_mem hu))
  exact ⟨c, hc, hxc, heq ▸ hxc⟩

/-- Vertices `a`, `b` and `c` with one edge, whose last class begins before the last vertex. -/
theorem updateVerticeUfs_faithful_pair : (classesOf (UfsRedis.updateVerticeUfs
      ⟨['k'], 2, [⟨['a'], []⟩, ⟨['b'], [2]⟩, ⟨['c'], [1]⟩]⟩)).flatten.Perm [['a'], ['b'], ['c']] := by
  have hadj : ∀ i j : Nat,
      j ∈ CudGraph.adj ⟨['k'], 2, [⟨['a'], []⟩, ⟨['b'], [2]⟩, ⟨['c'], [1]⟩]⟩ i →
        i = 1 ∧ j = 2 ∨ i = 2 ∧ j = 1 := by
    intro i j hj
    rcases i with _ | _ | _ | i <;> simp [CudGraph.adj] at hj <;> omega
  refine (updateVerticeUfs_faithful (g := ⟨['k'], 2, [⟨['a'], []⟩, ⟨['b'], [2]⟩, ⟨['c'], [1]⟩]⟩)
    ⟨⟨fun {i j} hj => ?_, fun i hi => ?_, fun {i j} hj => ?_, fun i => ?_⟩, fun {i j k} hj hk hne => ?_⟩
    (by decide) (by decide) (by decide)).1
  · have := hadj i j hj
    simp only [length_cons, length_nil]
    omega
  · have := hadj i i hi
    omega
  · rcases hadj i j hj with ⟨rfl, rfl⟩ | ⟨rfl, rfl⟩ <;> decide
  · rcases i with _ | _ | _ | i <;> simp [CudGraph.adj]
  have := hadj i j hj
  have := hadj j k hk
  omega

theorem GraphShows.length_updateVerticeUfs (h : GraphShows E g p) (h' : GraphShows E g' q) :
    (UfsRedis.updateVerticeUfs g').length = (UfsRedis.updateVerticeUfs g).length := by
  by_cases hE : E.length = 1
  · obtain ⟨x, rfl⟩ := length_eq_one_iff.mp hE
    rw [h.updateVerticeUfs_single, h'.updateVerticeUfs_single]
  rw [h.updateVerticeUfs_classes hE, h'.updateVerticeUfs_classes hE]
  exact Classes.length_render_eq (h'.elements_classes.trans h.elements_classes.symm)

/-! ## `uinit` -/

theorem partitionOf_nil : partitionOf [] = ⊥ := by
  rw [eq_bot_iff, partitionOf]
  exact Setoid.eqvGen_le fun x y h => absurd h (by simp [InClass])

theorem partitionOf_concat (L : List (List Sds)) (c : List Sds) :
    partitionOf (L ++ [c]) = glue (partitionOf L) {x | x ∈ c} := by
  apply le_antisymm
  · refine Setoid.eqvGen_le fun x y h => ?_
    rcases inClass_append.mp h with h | ⟨d, hd, hx, hy⟩
    · exact le_glue (.rel x y h)
    rw [mem_singleton] at hd
    subst hd
    exact glue_rel hx hy
  refine glue_le.mpr ⟨Setoid.eqvGen_le fun x y h => .rel x y (inClass_append.mpr (.inl h)), ?_⟩
  intro x hx y hy
  exact .rel x y (inClass_append.mpr (.inr ⟨c, by simp, hx, hy⟩))

theorem partitionOf_eq_foldl (L : List (List Sds)) :
    partitionOf L = L.foldl (fun p c => glue p {x | x ∈ c}) ⊥ := by
  induction L using List.reverseRecOn with
  | nil => exact partitionOf_nil
  | append_singleton L c ih => rw [partitionOf_concat, ih, foldl_append]; rfl

theorem GraphShows.addVertices (h : GraphShows E g p) (hnd : (E ++ c).Nodup)
    (hc : ∀ x ∈ c, NameOk x) : GraphShows (E ++ c) { g with dlist := g.dlist ++ c.map fun e =>
      ⟨e, []⟩ } p := by
  set g0 : CudGraph := { g with dlist := g.dlist ++ c.map fun e => ⟨e, []⟩ } with hg0
  have hnames : g0.names = E ++ c := h.names ▸ names_addVertices rfl
  have hlt : ∀ u, u < g.dlist.length → g0.dlist[u]? = g.dlist[u]? := by
    intro u hu
    rw [hg0, getElem?_append_left hu]
  have hadj : ∀ u, g0.adj u = g.adj u := adj_addVertices rfl
  have hname : ∀ u, u < g.dlist.length → g0.name u = g.name u := by
    intro u hu
    rw [name, hlt u hu]; rfl
  have hle : g.dlist.length ≤ g0.dlist.length := by simp [hg0]
  have hnd0 : g0.names.Nodup := hnames ▸ hnd
  have hcl : Cliques g0 := by
    refine ⟨⟨fun h' => ?_, fun i h' => ?_, fun h' => ?_, fun i => ?_⟩, fun h1 h2 h3 => ?_⟩
    · rw [hadj] at h'; exact lt_of_lt_of_le (h.cliques.inRange h') hle
    · rw [hadj] at h'; exact h.cliques.irrefl i h'
    · rw [hadj] at h' ⊢; exact h.cliques.symm h'
    · rw [hadj]; exact h.cliques.nodup i
    · rw [hadj] at h1 h2 ⊢; exact h.cliques.trans h1 h2 h3
  refine ⟨hnames, hnd, ?_, hcl, ?_⟩
  · intro x hx
    exact (mem_append.mp hx).elim (h.nameOk x) (hc x)
  have hp : ∀ x y, p x y → x ≠ y → x ∈ g.names ∧ y ∈ g.names := fun x y hxy hne =>
    mem_names_of_partition h.cliques h.nodup_names (h.partition ▸ hxy) hne
  -- the name of a new vertex is not a name of `g`
  have hnew : ∀ u, u < g0.dlist.length → g0.name u ∈ g.names → u < g.dlist.length := by
    intro u hu hmem
    obtain ⟨v, hv, hvu⟩ := exists_name hmem
    rw [← hname v hv] at hvu
    rwa [← name_inj hnd0 (lt_of_lt_of_le hv hle) hu hvu]
  refine partition_graph_eq hcl hnd0 ?_ fun u v hu hv => ?_
  · intro x y hxy hne
    obtain ⟨hx, hy⟩ := hp x y hxy hne
    rw [hnames, ← h.names]
    exact ⟨by simp [hx], by simp [hy]⟩
  have hconn : Conn g0 u v ↔ Conn g u v := by unfold Conn; rw [hadj]
  rw [hconn]
  by_cases huv : u = v
  · subst huv
    exact iff_of_true (.refl g u) (p.refl' _)
  constructor
  · intro hc
    have hmem := hc.resolve_left huv
    have hu' := lt_of_mem_adj hmem
    have hv' := h.cliques.inRange hmem
    rw [hname u hu', hname v hv', ← h.partition]
    exact (partition_name h.cliques h.nodup_names hu' hv').mpr hc
  intro hpuv
  have hne : g0.name u ≠ g0.name v := fun e => huv (name_inj hnd0 hu hv e)
  obtain ⟨hx, hy⟩ := hp _ _ hpuv hne
  have hu' := hnew u hu hx
  have hv' := hnew v hv hy
  rw [hname u hu', hname v hv', ← h.partition] at hpuv
  exact (partition_name h.cliques h.nodup_names hu' hv').mp hpuv

theorem GraphShows.addClass (h : GraphShows E g p) (hnd : (E ++ c).Nodup) (hc : ∀ x ∈ c, NameOk x) :
    ∃ g', addClass g c = .ok g' ∧ GraphShows (E ++ c) g' (glue p {x | x ∈ c}) ∧ g'.key = g.key := by
  have h0 := h.addVertices hnd hc
  set g0 : CudGraph := { g with dlist := g.dlist ++ c.map fun e => ⟨e, []⟩ } with hg0
  set C : Set Sds := {x | x ∈ c} with hC
  have hget : ∀ {k}, k < c.length → c.getD k [] ∈ c := by
    intro k hk
    rw [getD_eq_getElem _ _ hk]
    exact getElem_mem hk
  -- between the old partition and the glued one, all along
  set P : CudGraph → Prop := fun h' =>
    GraphShows (E ++ c) h' h'.partition ∧ p ≤ h'.partition ∧ h'.partition ≤ glue p C ∧
      h'.key = g.key with hP
  have hlink : ∀ h', P h' → ∀ {x y}, x ∈ c → y ∈ c →
      ∃ h'', UfsRedis.createLinksNames h' x y = .ok h'' ∧ P h'' ∧ h''.partition x y ∧
        h'.partition ≤ h''.partition := by
    rintro h' ⟨hs, hle, hge, hk⟩ x y hx hy
    obtain ⟨h'', hr, hs''⟩ := hs.createLinksNames (mem_append_right E hx)
      (mem_append_right E hy)
    have hpart := hs''.partition
    refine ⟨h'', hr, ⟨hpart ▸ hs'', ?_, ?_, (sameVertices_createLinksNames hr).key.trans hk⟩, ?_, ?_⟩
    · rw [hpart]; exact hle.trans le_glue
    · rw [hpart]
      refine glue_le.mpr ⟨hge, ?_⟩
      rintro a (rfl | rfl) b (rfl | rfl)
      · exact glue_rel hx hx
      · exact glue_rel hx hy
      · exact glue_rel hy hx
      · exact glue_rel hy hy
    · rw [hpart]; exact glue_rel (by simp) (by simp)
    · rw [hpart]; exact le_glue
  have hinner : ∀ h', P h' → ∀ k ∈ range c.length,
      ∃ h'', (range c.length).foldlM (fun g m => if m ≠ k then
          UfsRedis.createLinksNames g (c.getD k []) (c.getD m []) else .ok g) h' = .ok h'' ∧ P h'' ∧
        (∀ m ∈ range c.length, h''.partition (c.getD k []) (c.getD m [])) ∧
        h'.partition ≤ h''.partition := by
    intro h' hp' k hk
    obtain ⟨h'', hr, ⟨hp'', hle⟩, hall, -⟩ := foldlM_rule
      (P := fun h1 => P h1 ∧ h'.partition ≤ h1.partition)
      (Q := fun m h1 => CudGraph.partition h1 (c.getD k []) (c.getD m []))
      (f := fun g m => if m ≠ k then
          UfsRedis.createLinksNames g (c.getD k []) (c.getD m []) else .ok g)
      (l := range c.length) ⟨hp', le_rfl⟩ fun h1 hp1 m hm => by
        by_cases hmk : m = k
        · subst hmk
          exact ⟨h1, by simp, hp1, h1.partition.refl' _, fun _ h => h⟩
        obtain ⟨h2, hr, hp2, hxy, hle⟩ := hlink h1 hp1.1 (hget (mem_range.mp hk))
          (hget (mem_range.mp hm))
        exact ⟨h2, by simp only [ne_eq, hmk, not_false_eq_true, if_true, hr],
          ⟨hp2, hp1.2.trans hle⟩, hxy, fun m' h => hle h⟩
    exact ⟨h'', hr, hp'', hall, hle⟩
  obtain ⟨g', hr, ⟨hs, hle, hge, hk⟩, hall, -⟩ := foldlM_rule (P := P)
    (Q := fun k h1 => ∀ m ∈ range c.length, CudGraph.partition h1 (c.getD k []) (c.getD m []))
    (l := range c.length)
    (⟨h0.partition.symm ▸ h0, h0.partition.ge, h0.partition.le.trans le_glue, rfl⟩ : P g0)
    fun h' hp' k hk => by
      obtain ⟨h'', hr, hp'', hall, hle⟩ := hinner h' hp' k hk
      exact ⟨h'', hr, hp'', hall, fun k' h m hm => hle (h m hm)⟩
  have hglue : g'.partition = glue p C := by
    refine le_antisymm hge (glue_le.mpr ⟨hle, fun x hx y hy => ?_⟩)
    obtain ⟨k, hk, rfl⟩ := mem_iff_getElem.mp hx
    obtain ⟨m, hm, rfl⟩ := mem_iff_getElem.mp hy
    have := hall k (mem_range.mpr hk) m (mem_range.mpr hm)
    rwa [getD_eq_getElem _ _ hk, getD_eq_getElem _ _ hm] at this
  exact ⟨g', hr, hglue ▸ hs, hk⟩

theorem GraphShows.addClasses (h : GraphShows E g p) {L : List (List Sds)}
    (hnd : (E ++ L.flatten).Nodup) (hL : ∀ c ∈ L, ∀ x ∈ c, NameOk x) :
    ∃ g', L.foldlM UfsRedis.addClass g = .ok g' ∧
      GraphShows (E ++ L.flatten) g' (L.foldl (fun p c => glue p {x | x ∈ c}) p) ∧
      g'.key = g.key := by
  induction L generalizing g E p with
  | nil => exact ⟨g, rfl, by simpa using h, rfl⟩
  | cons c L ih =>
    rw [flatten_cons, ← append_assoc] at hnd
    obtain ⟨g1, hr1, h1, hk1⟩ := h.addClass (nodup_append.mp hnd).1 (hL c (by simp))
    obtain ⟨g2, hr2, h2, hk2⟩ := ih h1 hnd fun d hd => hL d (by simp [hd])
    refine ⟨g2, ?_, ?_, hk2.trans hk1⟩
    · rw [foldlM_cons, hr1, ok_bind, hr2]
    · rwa [flatten_cons, ← append_assoc]

/-- **`uinit` makes the graph of its argument.** -/
theorem uinitGraph_spec (key : Sds) {S : Sds} (hS : WellFormed S) :
    ∃ g, uinitGraph key S = .ok g ∧ GraphShows (elementsOf S) g (denote S) ∧ g.key = key := by
  have h0 : GraphShows [] (⟨key, 0, []⟩ : CudGraph) ⊥ := by
    have hadj : ∀ i, (⟨key, 0, []⟩ : CudGraph).adj i = [] := fun i => rfl
    have hcl : Cliques (⟨key, 0, []⟩ : CudGraph) := by
      refine ⟨⟨fun h => ?_, fun i h => ?_, fun h => ?_, fun i => ?_⟩, fun h => ?_⟩
      all_goals simp [hadj] at *
    refine ⟨rfl, nodup_nil, by simp, hcl, ?_⟩
    refine partition_graph_eq hcl nodup_nil ?_ ?_
    · intro x y hxy hne
      exact absurd hxy hne
    intro u v hu
    exact absurd hu (Nat.not_lt_zero u)
  obtain ⟨g, hr, hg, hk⟩ := h0.addClasses (L := classesOf S) hS.2 fun c hc => (hS.1 c hc).2
  refine ⟨g, ?_, ?_, hk⟩
  · rw [← hr, classesOf, foldlM_map]
    rfl
  rw [denote, partitionOf_eq_foldl]
  exact hg

end UfsRedis
