import UfsRedis.Ufs.Graph
import UfsRedis.Lib.Fold
import Mathlib.Algebra.BigOperators.Intervals
import Mathlib.Algebra.Order.BigOperators.Group.Finset
import Mathlib.Data.List.GetD

/-!
# The graph operations on cliques

`Cliques g`: the adjacency lists of `g` have no duplicates and make each class a clique.

All of them keep `Cliques`.
-/

namespace UfsRedis

open List Lib

namespace CudGraph

variable {g k : CudGraph} {i j : Nat} {es : List Sds}

theorem adj_eq_nil (h : g.dlist.length ≤ i) : g.adj i = [] := by
  simp [adj, getElem?_eq_none h]

theorem lt_of_mem_adj (h : j ∈ g.adj i) : i < g.dlist.length := by
  by_contra hi
  rw [adj_eq_nil (Nat.le_of_not_lt hi)] at h
  exact not_mem_nil h

theorem adj_addVertices (hk : k.dlist = g.dlist ++ es.map fun e => ⟨e, []⟩) (u : Nat) :
    k.adj u = g.adj u := by
  rw [adj, hk]
  by_cases hu : u < g.dlist.length
  · rw [getElem?_append_left hu]
    rfl
  rw [adj_eq_nil (Nat.le_of_not_lt hu), getElem?_append_right (Nat.le_of_not_lt hu), getElem?_map]
  cases es[u - g.dlist.length]? <;> rfl

theorem names_addVertices (hk : k.dlist = g.dlist ++ es.map fun e => ⟨e, []⟩) :
    k.names = g.names ++ es := by
  simp [names, hk, Function.comp_def]

theorem length_names : g.names.length = g.dlist.length := by simp [names]

theorem getElem?_names (i : Nat) : g.names[i]? = g.dlist[i]?.map Vertex.data := by
  simp [names]

theorem name_eq_getD (i : Nat) : g.name i = g.names.getD i [] := by
  simp [name, getElem?_names]

theorem name_mem (h : i < g.dlist.length) : g.name i ∈ g.names := by
  rw [name_eq_getD, getD_eq_getElem _ _ (by rwa [length_names])]
  exact getElem_mem _

theorem name_inj (hnd : g.names.Nodup) (hi : i < g.dlist.length)
    (hj : j < g.dlist.length) (h : g.name i = g.name j) : i = j := by
  rw [← length_names] at hi hj
  rw [name_eq_getD, name_eq_getD, getD_eq_getElem _ _ hi, getD_eq_getElem _ _ hj] at h
  exact (hnd.getElem_inj_iff).mp h

theorem exists_name (h : x ∈ g.names) : ∃ i, i < g.dlist.length ∧ g.name i = x := by
  obtain ⟨i, hi, rfl⟩ := mem_iff_getElem.mp h
  exact ⟨i, by rwa [length_names] at hi, by rw [name_eq_getD, getD_eq_getElem _ _ hi]⟩

end CudGraph

open CudGraph

theorem locateVex_name (hnd : g.names.Nodup) (hi : i < g.dlist.length) :
    locateVex g (g.name i) = some i := by
  rw [locateVex, findIdx?_eq_some_iff_getElem]
  have hname : ∀ j (hj : j < g.dlist.length), g.dlist[j].data = g.name j := by
    intro j hj; simp [name, getElem?_eq_getElem hj]
  refine ⟨hi, by simp [hname i hi], fun j hj => ?_⟩
  have hjn : j < g.dlist.length := by omega
  have hne : g.name j ≠ g.name i := fun h => by
    have := name_inj hnd hjn hi h
    omega
  simpa [hname j hjn] using hne

/-! ## Simple graphs and cliques -/

/-- The adjacency lists are symmetric, without loops and without duplicates. -/
structure Simple (g : CudGraph) : Prop where
  inRange : ∀ {i j : Nat}, j ∈ g.adj i → j < g.dlist.length
  irrefl : ∀ i : Nat, i ∉ g.adj i
  symm : ∀ {i j : Nat}, j ∈ g.adj i → i ∈ g.adj j
  nodup : ∀ i : Nat, (g.adj i).Nodup

/-- The graph is a disjoint union of cliques. -/
structure Cliques (g : CudGraph) : Prop extends Simple g where
  trans : ∀ {i j k : Nat}, j ∈ g.adj i → k ∈ g.adj j → k ≠ i → k ∈ g.adj i

/-- `u` and `v` are in one class. -/
def Conn (g : CudGraph) (u v : Nat) : Prop := u = v ∨ v ∈ g.adj u

variable {g : CudGraph} {a b : Nat}

section

variable {u v w : Nat}

theorem Conn.refl (g : CudGraph) (u : Nat) : Conn g u u := .inl rfl

theorem Simple.conn_symm (hg : Simple g) (h : Conn g u v) : Conn g v u :=
  h.elim (fun h => .inl h.symm) fun h => .inr (hg.symm h)

theorem Cliques.conn_trans (hg : Cliques g) (h₁ : Conn g u v) (h₂ : Conn g v w) : Conn g u w := by
  rcases h₁ with rfl | h₁
  · exact h₂
  rcases h₂ with rfl | h₂
  · exact .inr h₁
  by_cases h : w = u
  · exact .inl h.symm
  · exact .inr (hg.trans h₁ h₂ h)

theorem Simple.mem_adj_iff (hg : Simple g) : v ∈ g.adj u ↔ u ≠ v ∧ Conn g u v := by
  constructor
  · intro h
    exact ⟨fun e => hg.irrefl u (e ▸ h), .inr h⟩
  rintro ⟨hne, rfl | h⟩
  · exact absurd rfl hne
  · exact h

end

/-! ## `createEdge` -/

theorem names_addEdge (g : CudGraph) (a b : Nat) : (addEdge g a b).names = g.names := by
  apply ext_getElem?
  intro i
  simp only [getElem?_names, addEdge, getElem?_modify]
  split <;> cases g.dlist[i]? <;> rfl

theorem length_addEdge (g : CudGraph) (a b : Nat) :
    (addEdge g a b).dlist.length = g.dlist.length := by
  simp [addEdge]

theorem adj_addEdge (ha : a < g.dlist.length) (u : Nat) :
    (addEdge g a b).adj u = if u = a then b :: g.adj u else g.adj u := by
  simp only [adj, addEdge, getElem?_modify]
  by_cases h : u = a
  · subst h
    simp [getElem?_eq_getElem ha]
  · simp [h, Ne.symm h]

theorem mem_adj_addEdge (ha : a < g.dlist.length) (u v : Nat) :
    v ∈ (addEdge g a b).adj u ↔ v ∈ g.adj u ∨ (u = a ∧ v = b) := by
  rw [adj_addEdge ha]
  split
  next h => simp [h, or_comm]
  next h => simp [h]

theorem nodup_addEdge (ha : a < g.dlist.length) (h : b ∉ g.adj a) {u : Nat}
    (hu : (g.adj u).Nodup) : ((addEdge g a b).adj u).Nodup := by
  rw [adj_addEdge ha]
  split
  next e => exact nodup_cons.mpr ⟨e ▸ h, hu⟩
  next => exact hu

theorem createEdge_eq_self (hg : Simple g) (h : a = b ∨ b ∈ g.adj a) : createEdge g a b = g := by
  refine if_pos (h.imp id fun h => ?_)
  simpa [existEdge] using ⟨h, hg.symm h⟩

theorem createEdge_eq_add (hg : Simple g) (ha : a < g.dlist.length) (hab : a ≠ b)
    (h : b ∉ g.adj a) : createEdge g a b = addEdge (addEdge g a b) b a := by
  have hba : a ∉ g.adj b := fun h' => h (hg.symm h')
  have h' : a ∉ (addEdge g a b).adj b := by rw [adj_addEdge ha, if_neg (Ne.symm hab)]; exact hba
  simp [createEdge, existEdge, h, hab, h']

theorem createEdge_spec (hg : Simple g) (ha : a < g.dlist.length) (hb : b < g.dlist.length) :
    Simple (createEdge g a b) ∧ (createEdge g a b).names = g.names ∧
      ∀ u v, v ∈ (createEdge g a b).adj u ↔
        v ∈ g.adj u ∨ (u ≠ v ∧ ((u = a ∧ v = b) ∨ (u = b ∧ v = a))) := by
  by_cases h : a = b ∨ b ∈ g.adj a
  · rw [createEdge_eq_self hg h]
    refine ⟨hg, rfl, fun u v => ⟨.inl, ?_⟩⟩
    rintro (h' | ⟨hne, ⟨rfl, rfl⟩ | ⟨rfl, rfl⟩⟩)
    · exact h'
    · exact h.resolve_left hne
    · exact hg.symm (h.resolve_left (Ne.symm hne))
  obtain ⟨hab, hnot⟩ := not_or.mp h
  have hb' : b < (addEdge g a b).dlist.length := by rwa [length_addEdge]
  have hmem : ∀ u v, v ∈ (createEdge g a b).adj u ↔
      v ∈ g.adj u ∨ (u ≠ v ∧ ((u = a ∧ v = b) ∨ (u = b ∧ v = a))) := by
    intro u v
    have hne : (u = a ∧ v = b) ∨ (u = b ∧ v = a) → u ≠ v := by
      rintro (⟨rfl, rfl⟩ | ⟨rfl, rfl⟩)
      · exact hab
      · exact Ne.symm hab
    rw [createEdge_eq_add hg ha hab hnot, mem_adj_addEdge hb', mem_adj_addEdge ha, or_assoc,
      and_iff_right_of_imp hne]
  have hnames : (createEdge g a b).names = g.names := by
    rw [createEdge_eq_add hg ha hab hnot, names_addEdge, names_addEdge]
  have hlen : (createEdge g a b).dlist.length = g.dlist.length := by
    rw [← length_names, hnames, length_names]
  refine ⟨⟨fun {i j} h => ?_, fun i h => ?_, fun {i j} h => ?_, fun i => ?_⟩, hnames, hmem⟩
  · rw [hlen]
    rcases (hmem i j).mp h with h | ⟨-, ⟨-, rfl⟩ | ⟨-, rfl⟩⟩
    · exact hg.inRange h
    · exact hb
    · exact ha
  · rcases (hmem i i).mp h with h | ⟨h, -⟩
    · exact hg.irrefl i h
    · exact h rfl
  · rw [hmem] at h ⊢
    rcases h with h | ⟨hne, h⟩
    · exact .inl (hg.symm h)
    · exact .inr ⟨Ne.symm hne, h.elim (fun h => .inr ⟨h.2, h.1⟩) fun h => .inl ⟨h.2, h.1⟩⟩
  rw [createEdge_eq_add hg ha hab hnot]
  refine nodup_addEdge hb' (fun h => ?_) (nodup_addEdge ha hnot (hg.nodup i))
  exact hnot (hg.symm (((mem_adj_addEdge ha b a).mp h).resolve_right fun h => hab h.2))

/-! ## `createLinks` -/

/-- `h` has the vertices and edges of `g`, and no edge outside `R`. -/
structure Between (g : CudGraph) (R : Nat → Nat → Prop) (h : CudGraph) : Prop where
  simple : Simple h
  names : h.names = g.names
  ge : ∀ u v, v ∈ g.adj u → v ∈ h.adj u
  le : ∀ u v, v ∈ h.adj u → R u v

section

variable {g h : CudGraph} {R : Nat → Nat → Prop}

theorem Between.length_eq (hh : Between g R h) : h.dlist.length = g.dlist.length := by
  rw [← length_names, hh.names, length_names]

theorem Between.trans (hh : Between g R h) (hh' : Between h R h') : Between g R h' :=
  ⟨hh'.simple, hh'.names.trans hh.names, fun u v he => hh'.ge u v (hh.ge u v he), hh'.le⟩

theorem Between.createEdge (hg : Simple g) (hR : ∀ u v, v ∈ g.adj u → R u v)
    (hsymm : ∀ u v, R u v → R v u) (ha : a < g.dlist.length) (hb : b < g.dlist.length)
    (hab : a ≠ b → R a b) :
    Between g R (createEdge g a b) ∧ (a ≠ b → b ∈ (UfsRedis.createEdge g a b).adj a) := by
  obtain ⟨hs, hn, hm⟩ := createEdge_spec hg ha hb
  refine ⟨⟨hs, hn, fun u v he => (hm u v).mpr (.inl he), fun u v he => ?_⟩, fun hne => ?_⟩
  · rcases (hm u v).mp he with he | ⟨hne, ⟨rfl, rfl⟩ | ⟨rfl, rfl⟩⟩
    · exact hR u v he
    · exact hab hne
    · exact hsymm _ _ (hab (Ne.symm hne))
  · exact (hm a b).mpr (.inr ⟨hne, .inl ⟨rfl, rfl⟩⟩)

theorem Between.self (hg : Simple g) (hR : ∀ u v, v ∈ g.adj u → R u v) : Between g R g :=
  ⟨hg, rfl, fun _ _ h => h, hR⟩

variable {M : Nat → Prop} {i j p q : Nat}

/-- What one step of a walk has done: `p` is adjacent to `j` and to `q`. -/
def Joined (j p q : Nat) (h : CudGraph) : Prop := (p ≠ j → j ∈ h.adj p) ∧ (p ≠ q → q ∈ h.adj p)

theorem Between.joined (hb : Between h R h') (hj : Joined j p q h) : Joined j p q h' :=
  ⟨fun hne => hb.ge _ _ (hj.1 hne), fun hne => hb.ge _ _ (hj.2 hne)⟩

section

variable (hg : Simple g) (hR : ∀ u v, v ∈ g.adj u → R u v) (hsymm : ∀ u v, R u v → R v u)
  (hM : ∀ u v, M u → M v → u ≠ v → R u v) (hj : j < g.dlist.length)
include hg hR hsymm hM hj

theorem linkEdge_spec (hp : p < g.dlist.length) (hq : q < g.dlist.length) (hMj : M j)
    (hMp : M p) (hMq : M q) : Between g R (linkEdge j p g q) ∧ Joined j p q (linkEdge j p g q) := by
  unfold linkEdge
  split
  · obtain ⟨hb1, he1⟩ := Between.createEdge hg hR hsymm hp hj (hM p j hMp hMj)
    obtain ⟨hb2, he2⟩ := Between.createEdge hb1.simple hb1.le hsymm (by rwa [hb1.length_eq])
      (by rwa [hb1.length_eq]) (hM p q hMp hMq)
    exact ⟨hb1.trans hb2, fun hne => hb2.ge _ _ (he1 hne), he2⟩
  rename_i hpj
  obtain ⟨hb2, he2⟩ := Between.createEdge hg hR hsymm hp hq (hM p q hMp hMq)
  exact ⟨hb2, fun hne => absurd hne hpj, he2⟩

/-- One walk of `createLinks`: every vertex of the list of `i` gets an edge to `j` and to the
vertices of the list of `j`. -/
theorem linkWalk_spec (hMj : M j) (hMi : ∀ p ∈ g.adj i, M p) (hadj : ∀ q, R j q → M q) :
    Between g R (linkWalk i j g) ∧ ∀ p ∈ g.adj i, ∀ q ∈ g.adj j, Joined j p q (linkWalk i j g) := by
  -- the inner loop, over the list of `j` as it is in `h`
  have hinner : ∀ h, Between g R h → ∀ p ∈ g.adj i, Between h R ((h.adj j).foldl (linkEdge j p) h) ∧
        ∀ q ∈ h.adj j, Joined j p q ((h.adj j).foldl (linkEdge j p) h) := by
    intro h hh p hp
    have hrule := foldl_rule (P := Between h R) (Q := Joined j p) (f := linkEdge j p)
      (l := h.adj j) (Between.self hh.simple hh.le) fun h1 hh1 q hq => by
        have hlen : h1.dlist.length = g.dlist.length := hh1.length_eq.trans hh.length_eq
        have hq' : q < g.dlist.length := hh.length_eq ▸ hh.simple.inRange hq
        obtain ⟨hb, hpq⟩ := linkEdge_spec hh1.simple hh1.le hsymm hM (by omega)
          (by rw [hlen]; exact hg.inRange hp) (by omega) hMj (hMi p hp) (hadj q (hh.le j q hq))
        exact ⟨hh1.trans hb, hpq, fun q' => hb.joined⟩
    exact ⟨hrule.1, hrule.2.1⟩
  have hrule := foldl_rule (P := Between g R) (Q := fun p h => ∀ q ∈ g.adj j, Joined j p q h)
    (f := fun g p => (g.adj j).foldl (linkEdge j p) g) (l := g.adj i) (Between.self hg hR)
    fun h hh p hp => by
      obtain ⟨hb, hall⟩ := hinner h hh p hp
      exact ⟨hh.trans hb, fun q hq => hall q (hh.ge j q hq), fun p' h' q hq => hb.joined (h' q hq)⟩
  exact ⟨hrule.1, hrule.2.1⟩

end

theorem createLinks_spec (hg : Cliques g) (hi : i < g.dlist.length) (hj : j < g.dlist.length) :
    Cliques (createLinks g i j) ∧ (createLinks g i j).names = g.names ∧
      ∀ u v, Conn (createLinks g i j) u v ↔
        Conn g u v ∨ ((Conn g u i ∨ Conn g u j) ∧ (Conn g v i ∨ Conn g v j)) := by
  set M : Nat → Prop := fun u => Conn g u i ∨ Conn g u j with hMdef
  set R : Nat → Nat → Prop := fun u v => u ≠ v ∧ (Conn g u v ∨ (M u ∧ M v)) with hRdef
  have hsymm : ∀ u v, R u v → R v u := fun u v h =>
    ⟨Ne.symm h.1, h.2.elim (fun h => .inl (hg.conn_symm h)) fun h => .inr ⟨h.2, h.1⟩⟩
  have hM : ∀ u v, M u → M v → u ≠ v → R u v := fun u v hu hv hne => ⟨hne, .inr ⟨hu, hv⟩⟩
  have hMi : M i := .inl (.refl g i)
  have hMj : M j := .inr (.refl g j)
  have hclosed : ∀ u v, M u → R u v → M v := by
    rintro u v hu ⟨-, h | ⟨-, h⟩⟩
    · exact hu.imp (hg.conn_trans (hg.conn_symm h)) (hg.conn_trans (hg.conn_symm h))
    · exact h
  -- the three steps
  obtain ⟨hb1, he1⟩ := Between.createEdge hg.toSimple
    (fun u v h => (⟨fun e => hg.irrefl u (e ▸ h), .inl (.inr h)⟩ : R u v)) hsymm hi hj
    (hM i j hMi hMj)
  have hb2 := linkWalk_spec (i := i) (j := j) hb1.simple hb1.le hsymm hM
    (by rw [hb1.length_eq]; exact hj) hMj (fun p hp => hclosed i p hMi (hb1.le i p hp))
    (fun q hq => hclosed j q hMj hq)
  have hb3 := linkWalk_spec (i := j) (j := i) hb2.1.simple hb2.1.le hsymm hM
    (by rw [hb2.1.length_eq, hb1.length_eq]; exact hi) hMi
    (fun p hp => hclosed j p hMj (hb2.1.le j p hp)) (fun q hq => hclosed i q hMi hq)
  have hb : Between g R (createLinks g i j) := (hb1.trans hb2.1).trans hb3.1
  -- every vertex of the class of `i` has an edge to every vertex of the class of `j`
  have hcross : ∀ u v, Conn g u i → Conn g v j → u ≠ v → v ∈ (createLinks g i j).adj u := by
    intro u v hu hv huv
    by_cases hij : Conn g i j
    · have huv' : Conn g u v := hg.conn_trans hu (hg.conn_trans hij (hg.conn_symm hv))
      exact hb.ge u v (hg.mem_adj_iff.mpr ⟨huv, huv'⟩)
    have hne : i ≠ j := fun h => hij (.inl h)
    have hji1 : i ∈ (UfsRedis.createEdge g i j).adj j := hb1.simple.symm (he1 hne)
    by_cases hui : u = i
    · subst hui
      by_cases hvj : v = j
      · subst hvj
        exact hb3.1.ge _ _ (hb2.1.ge _ _ (he1 hne))
      have hv1 : v ∈ (UfsRedis.createEdge g u j).adj j :=
        hb1.ge j v (hg.mem_adj_iff.mpr ⟨Ne.symm hvj, hg.conn_symm hv⟩)
      have h3 := hb3.2 v (hb2.1.ge _ _ hv1) j (hb2.1.ge _ _ (he1 hne))
      exact hb3.1.simple.symm (h3.1 (Ne.symm huv))
    have hu1 : u ∈ (UfsRedis.createEdge g i j).adj i :=
      hb1.ge i u (hg.mem_adj_iff.mpr ⟨Ne.symm hui, hg.conn_symm hu⟩)
    by_cases hvj : v = j
    · subst hvj
      exact hb3.1.ge _ _ ((hb2.2 u hu1 i hji1).1 huv)
    have hv1 : v ∈ (UfsRedis.createEdge g i j).adj j :=
      hb1.ge j v (hg.mem_adj_iff.mpr ⟨Ne.symm hvj, hg.conn_symm hv⟩)
    exact hb3.1.ge _ _ ((hb2.2 u hu1 v hv1).2 huv)
  have hfull : ∀ u v, R u v → v ∈ (createLinks g i j).adj u := by
    rintro u v ⟨hne, h | ⟨hu, hv⟩⟩
    · exact hb.ge u v (hg.mem_adj_iff.mpr ⟨hne, h⟩)
    rcases hu with hu | hu <;> rcases hv with hv | hv
    · exact hb.ge u v (hg.mem_adj_iff.mpr ⟨hne, hg.conn_trans hu (hg.conn_symm hv)⟩)
    · exact hcross u v hu hv hne
    · exact hb.simple.symm (hcross v u hv hu (Ne.symm hne))
    · exact hb.ge u v (hg.mem_adj_iff.mpr ⟨hne, hg.conn_trans hu (hg.conn_symm hv)⟩)
  have hconn : ∀ u v, Conn (createLinks g i j) u v ↔ Conn g u v ∨ (M u ∧ M v) := by
    intro u v
    by_cases huv : u = v
    · subst huv
      exact ⟨fun _ => .inl (.refl g u), fun _ => .refl _ u⟩
    constructor
    · intro h
      exact (hb.le u v (h.resolve_left huv)).2
    intro h
    exact .inr (hfull u v ⟨huv, h⟩)
  refine ⟨⟨hb.simple, fun {a b c} hab hbc hca => ?_⟩, hb.names, hconn⟩
  refine hfull a c ⟨Ne.symm hca, ?_⟩
  rcases (hb.le a b hab).2 with h1 | ⟨ha, hb'⟩
  · rcases (hb.le b c hbc).2 with h2 | ⟨hb', hc⟩
    · exact .inl (hg.conn_trans h1 h2)
    · exact .inr ⟨hb'.imp (hg.conn_trans h1) (hg.conn_trans h1), hc⟩
  · exact .inr ⟨ha, hclosed b c hb' (hb.le b c hbc)⟩

end

/-! ## `removeAdjEdge` -/

section

variable {i : Nat}

theorem names_dropEdges (g : CudGraph) (i : Nat) (keep : Nat → Bool) :
    (dropEdges g i keep).names = g.names := by
  apply ext_getElem?
  intro u
  simp only [getElem?_names, dropEdges, getElem?_mapIdx, getElem?_modify]
  split <;> cases g.dlist[u]? <;> rfl

theorem adj_dropEdges (g : CudGraph) (i : Nat) (keep : Nat → Bool) (u : Nat) :
    (dropEdges g i keep).adj u =
      (if u = i then (g.adj u).filter keep else g.adj u).filter fun p => p ≠ i || keep u := by
  simp only [adj, dropEdges, getElem?_mapIdx, getElem?_modify]
  by_cases hu : u = i
  · subst hu
    cases g.dlist[u]? <;> simp
  · cases g.dlist[u]? <;> simp [hu, Ne.symm hu]

theorem mem_adj_dropEdges : w ∈ (dropEdges g i keep).adj u ↔
      w ∈ g.adj u ∧ (u = i → keep w = true) ∧ (w = i → keep u = true) := by
  rw [adj_dropEdges]
  by_cases hu : u = i <;> by_cases hw : w = i <;> simp [hu, hw]

theorem Simple.dropEdges (hg : Simple g) (i : Nat) (keep : Nat → Bool) :
    Simple (dropEdges g i keep) := by
  have hlen : (UfsRedis.dropEdges g i keep).dlist.length = g.dlist.length := by
    rw [← length_names, names_dropEdges, length_names]
  refine ⟨fun hu => ?_, fun u hu => ?_, fun hu => ?_, fun u => ?_⟩
  · rw [hlen]; exact hg.inRange (mem_adj_dropEdges.mp hu).1
  · exact hg.irrefl u (mem_adj_dropEdges.mp hu).1
  · obtain ⟨h1, h2, h3⟩ := mem_adj_dropEdges.mp hu
    exact mem_adj_dropEdges.mpr ⟨hg.symm h1, h3, h2⟩
  rw [adj_dropEdges]
  refine List.Nodup.filter _ ?_
  split
  · exact (hg.nodup u).filter _
  · exact hg.nodup u

theorem removeAdjEdge_spec (hg : Simple g) (hnd : g.names.Nodup) (hi : i < g.dlist.length)
    (list : Option (List Sds)) :
    ∃ h, removeAdjEdge g (g.name i) list = .ok h ∧ Simple h ∧ h.names = g.names ∧
      ∀ u w, w ∈ h.adj u ↔ w ∈ g.adj u ∧ (u = i → keeps list (g.name w) = true) ∧
        (w = i → keeps list (g.name u) = true) := by
  simp only [removeAdjEdge, locateVex_name hnd hi, vex_some, ok_bind]
  split
  · rename_i hnil
    refine ⟨g, rfl, hg, rfl, fun u w => ⟨fun h => ⟨h, ?_, ?_⟩, fun h => h.1⟩⟩
    · rintro rfl
      rw [hnil] at h
      exact absurd h not_mem_nil
    rintro rfl
    have h' := hg.symm h
    rw [hnil] at h'
    exact absurd h' not_mem_nil
  · exact ⟨_, rfl, hg.dropEdges i _, names_dropEdges g i _, fun u w => mem_adj_dropEdges⟩

/-- `h` is `g` without the edges between the names `T` and the other names. -/
structure CutTo (g : CudGraph) (T : Set Sds) (h : CudGraph) : Prop where
  simple : Simple h
  names : h.names = g.names
  adj : ∀ u w, w ∈ h.adj u ↔ w ∈ g.adj u ∧ (g.name u ∈ T ↔ g.name w ∈ T)

theorem name_congr {h : CudGraph} (hn : h.names = g.names) (u : Nat) : h.name u = g.name u := by
  rw [name_eq_getD, name_eq_getD, hn]

theorem removeAdjEdge_single (hg : Simple g) (hnd : g.names.Nodup) (hi : i < g.dlist.length) :
    ∃ h, removeAdjEdge g (g.name i) none = .ok h ∧ CutTo g {g.name i} h := by
  obtain ⟨h, hr, hs, hn, hadj⟩ := removeAdjEdge_spec hg hnd hi none
  refine ⟨h, hr, hs, hn, fun u w => ?_⟩
  simp only [hadj, keeps, Bool.false_eq_true, imp_false, Set.mem_singleton_iff]
  refine and_congr_right fun huw => ?_
  have hu := lt_of_mem_adj huw
  have hw := hg.inRange huw
  have hinj : ∀ v, v < g.dlist.length → (g.name v = g.name i ↔ v = i) := fun v hv =>
    ⟨name_inj hnd hv hi, fun h => by rw [h]⟩
  rw [hinj u hu, hinj w hw]
  constructor
  · rintro ⟨h1, h2⟩
    exact iff_of_false h1 h2
  intro hiff
  have hne : u ≠ w := fun e => hg.irrefl u (e ▸ huw)
  exact ⟨fun e => hne (e.trans (hiff.mp e).symm), fun e => hne ((hiff.mpr e).trans e.symm)⟩

theorem splitProc_set (hg : Simple g) (hnd : g.names.Nodup) {t : List Sds}
    (ht : ∀ x ∈ t, x ∈ g.names) :
    ∃ h, t.foldlM (fun g e => removeAdjEdge g e (some t)) g = .ok h ∧ CutTo g {x | x ∈ t} h := by
  have hstep : ∀ h, (Simple h ∧ h.names = g.names ∧ (∀ u w, w ∈ h.adj u → w ∈ g.adj u) ∧
      ∀ u w, w ∈ g.adj u → (g.name u ∈ t ↔ g.name w ∈ t) → w ∈ h.adj u) → ∀ e ∈ t,
      ∃ h', removeAdjEdge h e (some t) = .ok h' ∧
        (Simple h' ∧ h'.names = g.names ∧ (∀ u w, w ∈ h'.adj u → w ∈ g.adj u) ∧
          ∀ u w, w ∈ g.adj u → (g.name u ∈ t ↔ g.name w ∈ t) → w ∈ h'.adj u) ∧
        (∀ u w, w ∈ h'.adj u → g.name u = e → g.name w ∈ t) ∧
        ∀ e', (∀ u w, w ∈ h.adj u → g.name u = e' → g.name w ∈ t) →
          ∀ u w, w ∈ h'.adj u → g.name u = e' → g.name w ∈ t := by
    rintro h ⟨hs, hn, hle, hge⟩ e he
    obtain ⟨i, hi, rfl⟩ := exists_name (by rw [hn]; exact ht e he : e ∈ h.names)
    obtain ⟨h', hr, hs', hn', hadj⟩ := removeAdjEdge_spec hs (by rw [hn]; exact hnd) hi (some t)
    simp only [keeps, decide_eq_true_eq, name_congr hn] at hadj
    rw [name_congr hn] at hr he ⊢
    refine ⟨h', hr, ⟨hs', hn'.trans hn, fun u w huw => hle u w ((hadj u w).mp huw).1, ?_⟩, ?_, ?_⟩
    · intro u w huw hiff
      refine (hadj u w).mpr ⟨hge u w huw hiff, ?_, ?_⟩
      · rintro rfl; exact hiff.mp he
      · rintro rfl; exact hiff.mpr he
    · intro u w huw hu
      obtain ⟨h1, h2, -⟩ := (hadj u w).mp huw
      have hu' : u < g.dlist.length := lt_of_mem_adj (hle u w h1)
      have hi' : i < g.dlist.length := by rwa [← length_names, hn, length_names] at hi
      exact h2 (name_inj hnd hu' hi' hu)
    intro e' hq u w huw hu
    exact hq u w ((hadj u w).mp huw).1 hu
  obtain ⟨h, hr, ⟨hs, hn, hle, hge⟩, hall, -⟩ := foldlM_rule
    (Q := fun e h => ∀ u w, w ∈ CudGraph.adj h u → g.name u = e → g.name w ∈ t)
    (⟨hg, rfl, fun _ _ h => h, fun _ _ h _ => h⟩ : Simple g ∧ g.names = g.names ∧
      (∀ u w, w ∈ g.adj u → w ∈ g.adj u) ∧
      ∀ u w, w ∈ g.adj u → (g.name u ∈ t ↔ g.name w ∈ t) → w ∈ g.adj u) hstep
  refine ⟨h, hr, hs, hn, fun u w => ⟨fun huw => ⟨hle u w huw, ?_, ?_⟩, fun huw => ?_⟩⟩
  · exact fun hu => hall _ hu u w huw rfl
  · exact fun hw => hall _ hw w u (hs.symm huw) rfl
  · exact hge u w huw.1 huw.2

theorem CutTo.cliques (hg : Cliques g) (hh : CutTo g T h) : Cliques h := by
  refine ⟨hh.simple, fun {i j k} hij hjk hki => ?_⟩
  rw [hh.adj] at hij hjk ⊢
  exact ⟨hg.trans hij.1 hjk.1 hki, hij.2.trans hjk.2⟩

end

/-! ## What the operations keep -/

/-- The key and the names of two graphs are the same. -/
structure SameVertices (g h : CudGraph) : Prop where
  key : h.key = g.key
  names : h.names = g.names

section

variable {g h k : CudGraph}

theorem SameVertices.refl (g : CudGraph) : SameVertices g g := ⟨rfl, rfl⟩

theorem SameVertices.trans (h₁ : SameVertices g h) (h₂ : SameVertices h k) : SameVertices g k :=
  ⟨h₂.key.trans h₁.key, h₂.names.trans h₁.names⟩

variable {a b i j : Nat} {x y : Sds} {P : CudGraph → Prop} {l : List Sds}

section

variable {R : Nat → Prop} (hadj : ∀ g u v, P g → v ∈ g.adj u → R v)
  (add : ∀ g a b, P g → R a → R b → P (addEdge g a b))

include add in
theorem createEdge_rule (hg : P g) (ha : R a) (hb : R b) : P (createEdge g a b) := by
  have hadd : ∀ {g a b}, P g → R a → R b → P (if existEdge g a b then g else addEdge g a b) := by
    intro g a b hg ha hb
    split
    · exact hg
    · exact add g a b hg ha hb
  rw [createEdge]
  split
  · exact hg
  · exact hadd (hadd hg ha hb) hb ha

include hadj add

theorem linkWalk_rule (hg : P g) (hj : R j) : P (linkWalk i j g) := by
  refine (foldl_rule (Q := fun _ _ => True) hg fun g1 h1 p hp => ⟨?_, trivial, fun _ h => h⟩).1
  refine (foldl_rule (Q := fun _ _ => True) h1 fun g2 h2 q hq => ⟨?_, trivial, fun _ h => h⟩).1
  have hp := hadj g i p hg hp
  have hlink : P (if p ≠ j then createEdge g2 p j else g2) := by
    split
    · exact createEdge_rule add h2 hp hj
    · exact h2
  exact createEdge_rule add hlink hp (hadj g1 j q h1 hq)

theorem createLinks_rule (hg : P g) (hi : R i) (hj : R j) : P (createLinks g i j) :=
  linkWalk_rule hadj add (linkWalk_rule hadj add (createEdge_rule add hg hi hj) hj) hi

end

theorem sameVertices_createLinksNames (hr : createLinksNames g x y = .ok h) : SameVertices g h := by
  obtain ⟨i, -, hr⟩ := bind_eq_ok.mp hr
  obtain ⟨j, -, hr⟩ := bind_eq_ok.mp hr
  cases hr
  exact createLinks_rule (R := fun _ => True) (fun _ _ _ _ _ => trivial)
    (fun k a b hk _ _ => hk.trans ⟨rfl, names_addEdge k a b⟩) (.refl g) trivial trivial

theorem sameVertices_removeAdjEdge {v l} (hr : removeAdjEdge g v l = .ok h) : SameVertices g h := by
  obtain ⟨i, -, hr⟩ := bind_eq_ok.mp hr
  split at hr
  · cases hr
    exact .refl g
  cases hr
  exact ⟨rfl, names_dropEdges g i _⟩

theorem unionProc_rule {a b}
    (step : ∀ {g h x y}, P g → createLinksNames g x y = .ok h → P h) (hg : P g)
    (hr : unionProc g a b = .ok h) : P h := by
  have hfold : ∀ (es : List Sds) (y : Sds),
      es.foldlM (fun g e => createLinksNames g e y) g = .ok h → P h := fun es y hr =>
    foldlM_ok hg (fun _ _ _ _ hg hr => step hg hr) hr
  unfold unionProc at hr
  split at hr
  · cases hr
    exact hg
  split at hr
  · obtain ⟨c, -, hr⟩ := bind_eq_ok.mp hr
    split at hr
    · cases hr
      exact hg
    · exact hfold _ _ hr
  · obtain ⟨c, -, hr⟩ := bind_eq_ok.mp hr
    split at hr
    · cases hr
      exact hg
    · exact hfold _ _ hr
  · obtain ⟨c, -, hr⟩ := bind_eq_ok.mp hr
    split at hr
    · cases hr
      exact hg
    refine foldlM_ok hg (fun g1 e _ h1 hg1 hr => ?_) hr
    exact foldlM_ok hg1 (fun _ _ _ _ hg hr => step hg hr) hr
  · exact step hg hr

theorem splitProc_rule {a} (step : ∀ {g h v l}, P g → removeAdjEdge g v l = .ok h → P h) (hg : P g)
    (hr : splitProc g a = .ok h) : P h := by
  unfold splitProc at hr
  split at hr
  · exact foldlM_ok hg (fun _ _ _ _ hg hr => step hg hr) hr
  split at hr
  · exact step hg hr
  cases hr
  exact hg

theorem sameVertices_execOp {op} (hr : execOp g op = .ok h) : SameVertices g h := by
  unfold execOp at hr
  split at hr
  · obtain ⟨b, -, hr⟩ := bind_eq_ok.mp hr
    exact unionProc_rule (fun hg hr => hg.trans (sameVertices_createLinksNames hr)) (.refl g) hr
  · exact splitProc_rule (fun hg hr => hg.trans (sameVertices_removeAdjEdge hr)) (.refl g) hr

theorem exists_locateVex (h : x ∈ g.names) : ∃ i, locateVex g x = some i := by
  obtain ⟨v, hv, hdata⟩ := mem_map.mp h
  exact Option.isSome_iff_exists.mp
    (findIdx?_isSome.trans (any_eq_true.mpr ⟨v, hv, decide_eq_true hdata⟩))

theorem exists_createLinksNames (hx : x ∈ g.names) (hy : y ∈ g.names) :
    ∃ h, createLinksNames g x y = .ok h := by
  obtain ⟨i, hi⟩ := exists_locateVex hx
  obtain ⟨j, hj⟩ := exists_locateVex hy
  exact ⟨createLinks g i j, by simp [createLinksNames, hi, hj]⟩

theorem exists_removeAdjEdge (hx : x ∈ g.names) (l : Option (List Sds)) :
    ∃ h, removeAdjEdge g x l = .ok h := by
  obtain ⟨i, hi⟩ := exists_locateVex hx
  rw [removeAdjEdge, hi, vex_some, ok_bind]
  split <;> exact ⟨_, rfl⟩

/-- A sequence of steps that return on the names of the graph, and keep them. -/
theorem exists_foldlM_names {f : CudGraph → Sds → Except Fault CudGraph} (hl : ∀ x ∈ l, x ∈ g.names)
    (hf : ∀ k x, SameVertices g k → x ∈ k.names → ∃ h, f k x = .ok h ∧ SameVertices k h) :
    ∃ h, l.foldlM f g = .ok h ∧ SameVertices g h := by
  obtain ⟨h, hr, hsame, -⟩ := foldlM_rule (P := SameVertices g) (Q := fun _ _ => True) (f := f)
    (l := l) (.refl g) fun k hk x hx => by
      obtain ⟨h, hr, hsame⟩ := hf k x hk (hk.names ▸ hl x hx)
      exact ⟨h, hr, hk.trans hsame, trivial, fun _ h => h⟩
  exact ⟨h, hr, hsame⟩

theorem exists_linksTo (hl : ∀ x ∈ l, x ∈ g.names) (hy : y ∈ g.names) :
    ∃ h, l.foldlM (fun g e => createLinksNames g e y) g = .ok h ∧ SameVertices g h :=
  exists_foldlM_names hl fun k x hk hx => by
    obtain ⟨h, hr⟩ := exists_createLinksNames hx (hk.names ▸ hy)
    exact ⟨h, hr, sameVertices_createLinksNames hr⟩

theorem exists_addClass (g : CudGraph) (es : List Sds) :
    ∃ h, addClass g es = .ok h ∧ h.key = g.key := by
  set g0 : CudGraph := { g with dlist := g.dlist ++ es.map fun e => ⟨e, []⟩ } with hg0
  have hmem : ∀ k < es.length, es.getD k [] ∈ g0.names := by
    intro k hk
    rw [names_addVertices (congrArg CudGraph.dlist hg0), getD_eq_getElem _ _ hk]
    exact mem_append_right _ (getElem_mem hk)
  obtain ⟨h, hr, hsame, -⟩ := foldlM_rule (P := SameVertices g0) (Q := fun _ _ => True)
    (l := range es.length) (.refl g0) fun g1 h1 k hk => by
      obtain ⟨h, hr, hsame, -⟩ := foldlM_rule (P := SameVertices g0) (Q := fun _ _ => True)
        (f := fun g m => if m ≠ k then createLinksNames g (es.getD k []) (es.getD m []) else .ok g)
        (l := range es.length) h1 fun g2 h2 m hm => by
          split
          · obtain ⟨h, hr⟩ := exists_createLinksNames (g := g2)
              (h2.names ▸ hmem k (mem_range.mp hk)) (h2.names ▸ hmem m (mem_range.mp hm))
            exact ⟨h, hr, h2.trans (sameVertices_createLinksNames hr), trivial, fun _ h => h⟩
          · exact ⟨g2, rfl, h2, trivial, fun _ h => h⟩
      exact ⟨h, hr, hsame, trivial, fun _ h => h⟩
  exact ⟨h, hr, hsame.key⟩

/-- **`uinit` makes a graph of every argument.** -/
theorem exists_uinitGraph (key arg : Sds) : ∃ g, uinitGraph key arg = .ok g ∧ g.key = key := by
  obtain ⟨g, hr, hkey, -⟩ := foldlM_rule (P := fun g : CudGraph => g.key = key)
    (Q := fun _ _ => True) (f := fun g eqc => addClass g (sdssplit eqc ','))
    (l := sdssplit arg '/') (b := ⟨key, 0, []⟩) rfl fun g hg eqc _ => by
      obtain ⟨h, hr, hkey⟩ := exists_addClass g (sdssplit eqc ',')
      exact ⟨h, hr, hkey.trans hg, trivial, fun _ h => h⟩
  exact ⟨g, hr, hkey⟩

end

/-! ## The number of edges -/

open CudGraph

variable {g h k : CudGraph} {a b : Nat} {x y : Sds}

/-- The edges of all adjacency lists. -/
def CudGraph.edgeNodes (g : CudGraph) : Nat := ∑ u ∈ Finset.range g.dlist.length, (g.adj u).length

/-- A graph of `n` vertices whose `edgenum` is too high by `d`. -/
structure Counted (n : Nat) (d : Int) (g : CudGraph) : Prop where
  length : g.dlist.length = n
  inRange : ∀ u v, v ∈ g.adj u → v < n
  edgenum : g.edgenum = g.edgeNodes + d

/-- `h` is `g` without some of its edges. -/
structure Thinned (g h : CudGraph) : Prop where
  length : h.dlist.length = g.dlist.length
  edgenum : h.edgenum = g.edgenum
  adj : ∀ u, h.adj u <+ g.adj u

theorem Thinned.refl (g : CudGraph) : Thinned g g := ⟨rfl, rfl, fun _ => .refl _⟩

theorem Thinned.removeAdjEdge {l} (hg : Thinned g h) (hr : removeAdjEdge h x l = .ok k) :
    Thinned g k := by
  obtain ⟨i, -, hr⟩ := bind_eq_ok.mp hr
  split at hr
  · cases hr
    exact hg
  cases hr
  refine ⟨by simpa [dropEdges] using hg.length, hg.edgenum, fun u => ?_⟩
  rw [adj_dropEdges]
  refine filter_sublist.trans (Sublist.trans ?_ (hg.adj u))
  split
  · exact filter_sublist
  · exact .refl _

theorem Thinned.edgeNodes (hg : Thinned g h) : h.edgeNodes ≤ g.edgeNodes ∧
    (h.edgeNodes = g.edgeNodes ↔ ∀ u < g.dlist.length, h.adj u = g.adj u) := by
  have hle : ∀ u ∈ Finset.range g.dlist.length, (h.adj u).length ≤ (g.adj u).length :=
    fun u _ => (hg.adj u).length_le
  rw [CudGraph.edgeNodes, CudGraph.edgeNodes, hg.length, Finset.sum_eq_sum_iff_of_le hle]
  refine ⟨Finset.sum_le_sum hle, ?_⟩
  simp only [Finset.mem_range, (hg.adj _).length_eq]

theorem Thinned.eq_iff (hg : Thinned g h) (hv : SameVertices g h) :
    h = g ↔ ∀ u < g.dlist.length, h.adj u = g.adj u := by
  refine ⟨fun heq _ _ => heq ▸ rfl, fun hadj => ?_⟩
  have hlist : h.dlist = g.dlist := by
    refine ext_getElem hg.length fun u h1 h2 => ?_
    have hname : h.names[u]? = g.names[u]? := by rw [hv.names]
    have hedge := hadj u h2
    simp only [CudGraph.names, getElem?_map, CudGraph.adj, getElem?_eq_getElem h1,
      getElem?_eq_getElem h2, Option.map_some, Option.some.injEq, Option.getD_some] at hname hedge
    exact (Vertex.mk.injEq ..).mpr ⟨hname, hedge⟩
  exact (CudGraph.mk.injEq ..).mpr ⟨hv.key, hg.edgenum, hlist⟩

/-- No edge joins the vertex `v` and one whose name is not in `list`. -/
def NoneCut (g : CudGraph) (v : Sds) (list : Option (List Sds)) : Prop :=
  ∀ i ∈ (locateVex g v).toList, g.adj i = [] ∨ ∀ u < g.dlist.length, ∀ w ∈ g.adj u,
    (u = i → keeps list (g.name w)) ∧ (w = i → keeps list (g.name u))

/-- No edge joins a vertex that `split a` names and one that it does not name. -/
def SplitIdle (g : CudGraph) (a : Sds) : Prop :=
  if isSet a then ∀ e ∈ sdssplit a ',', NoneCut g e (some (sdssplit a ','))
  else a ≠ star → NoneCut g a none

instance (a : Sds) : Decidable (SplitIdle g a) := by
  unfold SplitIdle NoneCut
  infer_instance

theorem removeAdjEdge_eq_iff {l} (hr : removeAdjEdge g x l = .ok h) : h = g ↔ NoneCut g x l := by
  have hthin := Thinned.removeAdjEdge (.refl _) hr
  have hv := sameVertices_removeAdjEdge hr
  obtain ⟨i, hi, hr⟩ := bind_eq_ok.mp hr
  have hloc : locateVex g x = some i := by
    rcases hl : locateVex g x with _ | j <;> rw [hl] at hi <;> cases hi
    rfl
  simp only [NoneCut, hloc, Option.toList_some, mem_singleton, forall_eq]
  split at hr
  next hnil =>
    cases hr
    simp [hnil]
  next hne =>
  rw [hthin.eq_iff hv, or_iff_right hne]
  cases hr
  refine forall₂_congr fun u _ => ?_
  rw [adj_dropEdges]
  by_cases hu : u = i
  · simp [hu, filter_filter, filter_eq_self, imp_iff_not_or, and_comm]
  · simp [hu, filter_eq_self, imp_iff_not_or]

theorem removeAdjEdges_eq_iff {l} {es : List Sds}
    (hr : es.foldlM (fun g e => removeAdjEdge g e l) g = .ok h) :
    h = g ↔ ∀ e ∈ es, NoneCut g e l := by
  induction es generalizing g with
  | nil =>
    cases hr
    simp
  | cons e es ih =>
    rw [foldlM_cons] at hr
    obtain ⟨k, hk, hr'⟩ := bind_eq_ok.mp hr
    rw [forall_mem_cons, ← removeAdjEdge_eq_iff hk]
    refine ⟨fun heq => ?_, fun ⟨hkg, h⟩ => ?_⟩
    · -- the first vertex keeps what all of them keep
      subst heq
      have hthin := Thinned.removeAdjEdge (.refl _) hk
      have hthin' : Thinned k h := foldlM_ok (P := Thinned k) (.refl _)
        (fun _ _ _ _ hg hr => hg.removeAdjEdge hr) hr'
      have hkg := (hthin.eq_iff (sameVertices_removeAdjEdge hk)).mpr fun u _ =>
        (hthin.adj u).antisymm (hthin'.adj u)
      subst hkg
      exact ⟨rfl, (ih hr').mp rfl⟩
    · subst hkg
      exact (ih hr').mpr h

theorem splitProc_eq_iff {a} (hr : splitProc g a = .ok h) : h = g ↔ SplitIdle g a := by
  unfold splitProc at hr
  unfold SplitIdle
  split at hr
  next hset => rw [if_pos hset, removeAdjEdges_eq_iff hr]
  next hset =>
  rw [if_neg hset]
  split at hr
  next hstar => rw [removeAdjEdge_eq_iff hr, imp_iff_right hstar]
  next hstar =>
    cases hr
    simp [hstar]

section

variable {n : Nat} {d : Int} (hg : Counted n d g)
include hg

theorem Counted.addEdge (ha : a < n) (hb : b < n) : Counted n d (addEdge g a b) := by
  refine ⟨(length_addEdge g a b).trans hg.length, fun u v hv => ?_, ?_⟩
  · rcases (mem_adj_addEdge (hg.length.symm ▸ ha) u v).mp hv with hv | ⟨-, rfl⟩
    · exact hg.inRange u v hv
    · exact hb
  have hlen : ∀ u, ((UfsRedis.addEdge g a b).adj u).length =
      (g.adj u).length + if u = a then 1 else 0 := by
    intro u
    rw [adj_addEdge (hg.length.symm ▸ ha)]
    split <;> rfl
  have hnum : (UfsRedis.addEdge g a b).edgenum = g.edgenum + 1 := rfl
  rw [hnum, hg.edgenum, CudGraph.edgeNodes, CudGraph.edgeNodes]
  simp only [hlen, length_addEdge, Finset.sum_add_distrib, Finset.sum_ite_eq', Finset.mem_range,
    hg.length, ha, if_true]
  push_cast
  omega

theorem Counted.createLinksNames (hr : createLinksNames g x y = .ok k) : Counted n d k := by
  have hlt : ∀ {z i}, vex (locateVex g z) = .ok i → i < n := by
    intro z i hi
    rcases hloc : locateVex g z with _ | j
    · rw [hloc] at hi
      cases hi
    rw [hloc, vex_some, Except.ok.injEq] at hi
    exact hi ▸ hg.length ▸ (findIdx?_eq_some_iff_getElem.mp hloc).1
  obtain ⟨i, hi, hr⟩ := bind_eq_ok.mp hr
  obtain ⟨j, hj, hr⟩ := bind_eq_ok.mp hr
  cases hr
  exact createLinks_rule (R := (· < n)) (fun _ u v hg => hg.inRange u v)
    (fun _ _ _ hg => hg.addEdge) hg (hlt hi) (hlt hj)

theorem Counted.addVertices {es : List Sds} (hk : k.dlist = g.dlist ++ es.map fun e => ⟨e, []⟩)
    (hnum : k.edgenum = g.edgenum) : Counted (n + es.length) d k := by
  have hadj := adj_addVertices hk
  refine ⟨by simp [hk, hg.length], fun u v hv => ?_, ?_⟩
  · rw [hadj] at hv
    exact (hg.inRange u v hv).trans_le (Nat.le_add_right _ _)
  have hsum : k.edgeNodes = g.edgeNodes := by
    simp [CudGraph.edgeNodes, hadj, hk, Finset.sum_range_add, adj_eq_nil (Nat.le_add_right _ _)]
  rw [hnum, hsum, hg.edgenum]

theorem Counted.addClass {es} (hr : addClass g es = .ok h) : Counted (n + es.length) d h := by
  refine foldlM_ok ?_ (fun g1 k _ h1 hg1 hr => ?_) (by exact hr)
  · exact hg.addVertices rfl rfl
  refine foldlM_ok hg1 (fun g2 m _ h2 hg2 hr => ?_) hr
  split at hr
  · exact hg2.createLinksNames hr
  cases hr
  exact hg2

theorem Counted.execOp {op} (hr : execOp g op = .ok h) : ∃ d', d ≤ d' ∧ Counted n d' h ∧
    (d' = d ↔ (op.optype = .split → SplitIdle g op.argv1)) := by
  have hv := sameVertices_execOp hr
  unfold UfsRedis.execOp at hr
  split at hr
  next hop =>
    obtain ⟨b, -, hr⟩ := bind_eq_ok.mp hr
    have hh := unionProc_rule (fun hg hr => hg.createLinksNames hr) hg hr
    exact ⟨d, le_rfl, hh, by simp [hop]⟩
  next hop =>
    have hh := splitProc_rule (P := Thinned g) (fun hg hr => hg.removeAdjEdge hr)
      (.refl _) hr
    obtain ⟨hle, heq⟩ := hh.edgeNodes
    refine ⟨d + (g.edgeNodes - h.edgeNodes), by omega, ⟨hh.length.trans hg.length,
      fun u v hv => hg.inRange u v ((hh.adj u).subset hv), ?_⟩, ?_⟩
    · rw [hh.edgenum, hg.edgenum]
      omega
    rw [← splitProc_eq_iff hr, hh.eq_iff hv, ← heq]
    simp only [hop, forall_const]
    omega

end

/-- All splits of the run are idle. -/
def SplitsIdle (g : CudGraph) : List UfsOp → Prop
  | [] => True
  | op :: ops => (op.optype = .split → SplitIdle g op.argv1) ∧
    ∀ h, execOp g op = .ok h → SplitsIdle h ops

theorem Counted.run {n d ops} (hg : Counted n d g) (hr : ops.foldlM UfsRedis.execOp g = .ok h) :
    ∃ d', d ≤ d' ∧ Counted n d' h ∧ (d' = d ↔ SplitsIdle g ops) := by
  induction ops generalizing g d with
  | nil =>
    cases hr
    exact ⟨d, le_rfl, hg, by simp [SplitsIdle]⟩
  | cons op ops ih =>
    rw [foldlM_cons] at hr
    obtain ⟨g1, hop, hr⟩ := bind_eq_ok.mp hr
    obtain ⟨d1, hd1, hg1, hiff1⟩ := hg.execOp hop
    obtain ⟨d2, hd2, hg2, hiff2⟩ := ih hg1 hr
    refine ⟨d2, hd1.trans hd2, hg2, ?_⟩
    simp only [SplitsIdle, hop, Except.ok.injEq, forall_eq']
    rw [← hiff1, ← hiff2]
    omega

/-- **`edgenum` counts the edges** as an `int` iff there are not too many and no split of the run cuts
a class: `removeAdjEdge` does not count what it frees. -/
theorem edgenum_counts_iff {key S : Sds} {ops : List UfsOp} (h₀ : uinitGraph key S = .ok g)
    (hr : ops.foldlM execOp g = .ok h) : (h.edgenum = h.edgeNodes ∧ h.edgenum < 2 ^ 31) ↔
      SplitsIdle g ops ∧ h.edgeNodes < 2 ^ 31 := by
  obtain ⟨n, hg⟩ : ∃ n, Counted n 0 g := foldlM_ok (P := fun g => ∃ n, Counted n 0 g)
    ⟨0, rfl, by simp [CudGraph.adj], rfl⟩
    (fun _ _ _ _ hg hr => hg.elim fun _ hg => ⟨_, hg.addClass hr⟩) h₀
  obtain ⟨d, -, hh, hiff⟩ := hg.run hr
  rw [← hiff]
  have := hh.edgenum
  omega

theorem edgenum_counts_iff_idle : ∃ g, uinitGraph ['k'] ['a', '/', 'b'] = .ok g ∧
    ∃ h, [splitOp ['a'], unionOp ['a'] ['b']].foldlM execOp g = .ok h ∧
      h.edgenum = h.edgeNodes ∧ h.edgenum < 2 ^ 31 := by
  refine exists_ok_imp (P := fun g => ∃ h, [splitOp ['a'], unionOp ['a'] ['b']].foldlM execOp g =
    .ok h ∧ SplitsIdle g [splitOp ['a'], unionOp ['a'] ['b']] ∧ h.edgeNodes < 2 ^ 31) ?_ ?_
  · simp only [SplitsIdle]
    decide +kernel
  rintro g hg ⟨h, hr, hidle⟩
  exact ⟨h, hr, (edgenum_counts_iff hg hr).mpr hidle⟩

/-- After `uinit k a,b` and `split a` there is no edge, and `edgenum` is 2. -/
theorem edges_miscounted : ∃ g, uinitGraph ['k'] ['a', ',', 'b'] = .ok g ∧
    ∃ h, [splitOp ['a']].foldlM execOp g = .ok h ∧ h.edgenum = 2 ∧ h.edgeNodes = 0 := by
  decide +kernel

end UfsRedis
