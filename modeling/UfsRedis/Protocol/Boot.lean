import UfsRedis.Protocol.ServerSteps

/-!
# The start

* `Node.addUfs`: what `uinit` of a new key does to a node;
* `Link.start`: a link before the first operation;
* `System.boot_eq`, `Inv.boot`: the system before the first operation.
-/

namespace UfsRedis

open Lib Coord Option List

/-! ## `uinit` -/

def clientSpace (g : CudGraph) : CVerlist :=
  ⟨g.key, (updateVerticeUfs g).length, [Vertice.create (updateVerticeUfs g)]⟩

def serverSpaces (slaves : List Slave) (g : CudGraph) : List Verlist :=
  slaves.map fun s => ⟨s.port, g.key, (updateVerticeUfs g).length,
    [Vertice.create (updateVerticeUfs g)]⟩

/-- The node after `uinit` of a new key, with the graph `g`. -/
def Node.addUfs (n : Node) (g : CudGraph) : Node :=
  { n with
    ufslist := some (n.ufslist.getD [] ++ [g])
    cspacelist := if n.masterhost then some (n.cspacelist.getD [] ++ [clientSpace g])
      else n.cspacelist
    sspacelist := if n.masterhost then n.sspacelist
      else some (n.sspacelist.getD [] ++ serverSpaces n.slaves g) }

variable {g : CudGraph} {gs : List CudGraph} {inits : List (Sds × Sds)}

section

variable {n : Node} {c : Client} {name key S : Sds}

/-- `uinit` at the server, or at a client without a state space of the key. -/
theorem uinitCommand_eq (hargv : c.argv = [name, key, S]) (hg : uinitGraph key S = .ok g)
    (hkey : g.key = key) (hnew : n.masterhost = true → ∀ v ∈ n.cspacelist.getD [], v.key ≠ key) :
    uinitCommand n c = .ok (n.addUfs g, ⟨c.argv, true, some .ok⟩) := by
  have hk : arg [name, key, S] 1 = .ok key := rfl
  have hS : arg [name, key, S] 2 = .ok S := rfl
  simp only [uinitCommand, hargv, hk, hS, ok_bind, hg, Node.addUfs, clientSpace, serverSpaces, hkey]
  rcases hm : n.masterhost with _ | _
  · rfl
  have hany : (n.cspacelist.getD []).any (fun v => decide (v.key = key)) = false := by
    rw [List.any_eq_false]
    intro v hv
    simpa using hnew hm v hv
  simp [hany]

/-- `uinit` at a client that has a state space of the key. -/
theorem uinitCommand_existing (hargv : c.argv = [name, key, S]) (hg : uinitGraph key S = .ok g)
    (hm : n.masterhost = true) (hold : ∃ v ∈ n.cspacelist.getD [], v.key = key) :
    uinitCommand n c = .ok ({ n with ufslist := some (n.ufslist.getD [] ++ [g]) },
      ⟨c.argv, false, some .argvuaddexistufs⟩) := by
  have hk : arg [name, key, S] 1 = .ok key := rfl
  have hS : arg [name, key, S] 2 = .ok S := rfl
  have hany : (n.cspacelist.getD []).any (fun v => decide (v.key = key)) = true := by
    rw [List.any_eq_true]
    obtain ⟨v, hv, hvk⟩ := hold
    exact ⟨v, hv, decide_eq_true hvk⟩
  simp only [uinitCommand, hargv, hk, hS, ok_bind, hg, hm, if_true, hany]
  rcases hl : n.cspacelist with _ | l
  · rw [hl] at hold
    exact absurd hold (by simp)
  rfl

theorem Node.mem_cspacelist_addUfs (hv : v ∈ (n.addUfs g).cspacelist.getD []) :
    v ∈ n.cspacelist.getD [] ∨ v.key = g.key := by
  rw [Node.addUfs] at hv
  split at hv
  · rw [getD_some, mem_append, mem_singleton] at hv
    rcases hv with hv | rfl
    · exact .inl hv
    · exact .inr rfl
  · exact .inl hv

/-- `uinit` of each key in turn adds the graphs and spaces of all of them. -/
theorem initNode_eq
    (hgs : List.Forall₂ (fun x g => uinitGraph x.1 x.2 = .ok g ∧ g.key = x.1) inits gs)
    (hnodup : (inits.map Prod.fst).Nodup)
    (hnew : ∀ x ∈ inits, ∀ v ∈ n.cspacelist.getD [], v.key ≠ x.1) :
    initNode inits n = .ok (gs.foldl Node.addUfs n) := by
  induction hgs generalizing n with
  | nil => rfl
  | @cons x g inits gs hg _ ih =>
    rw [map_cons, nodup_cons] at hnodup
    have hcmd := uinitCommand_eq (c := userClient [uinitCmd, x.1, x.2]) rfl hg.1 hg.2
      fun _ => hnew x (by simp)
    rw [foldl_cons, ← ih hnodup.2 fun y hy v hv => ?_]
    · rw [initNode, foldlM_cons]
      simp only [hcmd, ok_bind]
      rfl
    rcases Node.mem_cspacelist_addUfs hv with hv | hv
    · exact hnew y (by simp [hy]) v hv
    rw [hv, hg.2]
    exact fun he => hnodup.1 (he ▸ List.mem_map_of_mem hy)

theorem foldl_addUfs_frame (gs : List CudGraph) (n : Node) : gs.foldl Node.addUfs n = { n with
        ufslist := (gs.foldl Node.addUfs n).ufslist
        cspacelist := (gs.foldl Node.addUfs n).cspacelist
        sspacelist := (gs.foldl Node.addUfs n).sspacelist } := by
  induction gs generalizing n with
  | nil => rfl
  | cons g gs ih =>
    rw [foldl_cons]
    exact (ih (n.addUfs g)).trans rfl

theorem ufslist_foldl_addUfs (gs : List CudGraph) (n : Node) :
    (gs.foldl Node.addUfs n).ufslist.getD [] = n.ufslist.getD [] ++ gs := by
  induction gs generalizing n with
  | nil => simp
  | cons g gs ih =>
    rw [foldl_cons, ih, Node.addUfs, getD_some, append_assoc]
    rfl

theorem cspacelist_foldl_addUfs (gs : List CudGraph) (h : n.masterhost = true) :
    (gs.foldl Node.addUfs n).cspacelist.getD [] = n.cspacelist.getD [] ++ gs.map clientSpace := by
  induction gs generalizing n with
  | nil => simp
  | cons g gs ih =>
    rw [foldl_cons, ih (by exact h), Node.addUfs, if_pos h, getD_some, append_assoc]
    rfl

theorem sspacelist_foldl_addUfs (gs : List CudGraph) (h : n.masterhost = false) :
    (gs.foldl Node.addUfs n).sspacelist.getD [] =
      n.sspacelist.getD [] ++ gs.flatMap (serverSpaces n.slaves) := by
  induction gs generalizing n with
  | nil => simp
  | cons g gs ih =>
    have hadd : (n.addUfs g).sspacelist = some (n.sspacelist.getD [] ++ serverSpaces n.slaves g) :=
      if_neg (by simp [h])
    rw [foldl_cons, ih (by exact h), hadd, getD_some, append_assoc]
    rfl

end

/-! ## A link before the first operation -/

section

variable {E : List Sds} {S : Sds} {p : Setoid Sds}

def History.empty : History := fun _ => []

theorem mem_empty : Lib.Mem History.empty.ctxs c ↔ c = zero := by
  refine ⟨fun h => ?_, fun h => h ▸ mem_zero _⟩
  have hz : ∀ s, c.get s = 0 := fun s => Nat.le_zero.mp (h s).1
  exact ext_get .l ((hz _).trans (get_zero _).symm) ((hz _).trans (get_zero _).symm)

theorem stair_empty : Stair History.empty.ctxs :=
  ⟨fun _ _ _ _ h => absurd h (Nat.not_lt_zero _), fun _ _ h => absurd h (Nat.not_lt_zero _),
    fun _ _ _ h => absurd h (Nat.not_lt_zero _)⟩

/-- The cells of a grid with the content `S` at the root. -/
def Cells.start (S : Sds) : Cells where
  ix _ := 0
  content _ := S
  op _ _ := splitOp S

theorem not_mem_step_empty {c : Coord} {s : Side} : ¬ Mem History.empty.ctxs (c.step s) := by
  rw [mem_empty]
  intro h
  have := congrArg (Coord.get · s) h
  simp at this

/-- One vertice is the grid of the empty history. -/
theorem Grid.start (h : Shows E S p) :
    Grid E S.length [Vertice.create S] History.empty (Cells.start S) where
  stair := stair_empty
  layout := {
    zero := mem_zero _
    ix_zero := rfl
    content := fun _ _ => rfl
    edge := fun _ _ _ hs => absurd hs not_mem_step_empty
    none := fun _ s _ _ => by cases s <;> rfl
    inj := fun c d hc hd _ => (mem_empty.mp hc).trans (mem_empty.mp hd).symm
    surj := fun i hi => ⟨zero, mem_zero _, (Nat.lt_one_iff.mp hi).symm⟩
    lt := fun _ _ _ hs => absurd hs not_mem_step_empty }
  sound := {
    shows := fun _ _ => h.self
    length := fun _ _ => rfl
    edge := fun _ _ _ hs => absurd hs not_mem_step_empty
    square := fun _ _ _ hs => absurd hs not_mem_step_empty }

def LinkState.start (S : Sds) : LinkState where
  H := History.empty
  arrived _ := 0
  cells _ := Cells.start S

theorem LinkState.hist_start (s : Side) : (LinkState.start S).hist s = History.empty :=
  History.cut_length rfl

/-- Both ends of a new link have the same content, and nothing is on its way. -/
theorem Link.start (key : Sds) (h : Shows E S p) :
    Link E S.length key (LinkState.start S) (fun _ => [Vertice.create S]) fun _ => [] where
  stair := stair_empty
  oidsOk := ⟨fun _ _ hr => absurd hr not_mem_nil,
    fun _ _ _ _ hi => absurd hi (Nat.not_lt_zero _)⟩
  opOk _ _ hr := absurd hr not_mem_nil
  le _ := Nat.le_refl _
  grid s := by
    rw [LinkState.hist_start]
    exact Grid.start h
  chan _ := .nil

end

/-! ## The system before the first operation -/

variable {ports : List Nat}

/-- The system after the `uinit` commands, with the graphs `gs`. -/
def System.start (ports : List Nat) (gs : List CudGraph) : System where
  server := gs.foldl Node.addUfs (freshServer ports)
  peers := ports.map fun port => ⟨gs.foldl Node.addUfs (freshClient port), [], []⟩

/-- The state after the `uinit` commands. -/
theorem System.boot_eq (hnodup : (inits.map Prod.fst).Nodup)
    (hgs : List.Forall₂ (fun x g => uinitGraph x.1 x.2 = .ok g ∧ g.key = x.1) inits gs) :
    System.boot ports inits = .ok (System.start ports gs) := by
  have hserver : initNode inits (freshServer ports) = .ok (gs.foldl Node.addUfs (freshServer ports)) :=
    initNode_eq hgs hnodup fun _ _ _ hv => absurd hv not_mem_nil
  have hclient : ∀ port, initNode inits (freshClient port) =
      .ok (gs.foldl Node.addUfs (freshClient port)) := fun port =>
    initNode_eq hgs hnodup fun _ _ _ hv => absurd hv not_mem_nil
  have hpeers : (ports.mapM fun port => do
      let n ← initNode inits (freshClient port)
      .ok (⟨n, [], []⟩ : Peer)) = .ok (System.start ports gs).peers := by
    simp only [hclient, ok_bind]
    exact mapM_pure
  rw [System.boot, hserver, ok_bind, hpeers, ok_bind]
  rfl

theorem bind_eq_getD_find? {α : Type} {q} (o : Option (List α)) :
    o.bind (·.find? q) = (o.getD []).find? q := by
  cases o <;> rfl

theorem graph_foldl_addUfs {n} (hnodup : (gs.map CudGraph.key).Nodup) (hg : g ∈ gs)
    (hn : n.ufslist = none) : (gs.foldl Node.addUfs n).graph g.key = some g := by
  rw [Node.graph, bind_eq_getD_find?, ufslist_foldl_addUfs, hn]
  exact find?_of_unique hg (by simp) fun g' hg' he =>
    inj_on_of_nodup_map hnodup hg' hg (of_decide_eq_true he)

theorem System.start_spaces (hnodup : (gs.map CudGraph.key).Nodup)
    (hg : g ∈ gs) {port : Nat} (hport : port ∈ ports) :
    (gs.foldl Node.addUfs (freshClient port)).cver g.key = some (clientSpace g) ∧
      (System.start ports gs).server.sver port g.key =
        some ⟨port, g.key, (updateVerticeUfs g).length, [Vertice.create (updateVerticeUfs g)]⟩ := by
  have huniq : ∀ g' ∈ gs, g'.key = g.key → g' = g := fun g' hg' =>
    inj_on_of_nodup_map hnodup hg' hg
  refine ⟨?_, ?_⟩
  · rw [Node.cver, bind_eq_getD_find?, cspacelist_foldl_addUfs gs rfl]
    refine find?_of_unique (List.mem_map_of_mem hg) (decide_eq_true rfl) fun v hv he => ?_
    obtain ⟨g', hg', rfl⟩ := List.mem_map.mp hv
    rw [huniq g' hg' (of_decide_eq_true he)]
  rw [Node.sver]
  simp only [spaceAt]
  rw [bind_eq_getD_find?, System.start, sspacelist_foldl_addUfs gs rfl]
  refine find?_of_unique ?_ (decide_eq_true ⟨rfl, rfl⟩) fun v hv he => ?_
  · refine mem_flatMap.mpr ⟨g, hg, List.mem_map.mpr ?_⟩
    obtain ⟨i, hi⟩ := getElem?_of_mem hport
    obtain ⟨hlt, rfl⟩ := List.getElem?_eq_some_iff.mp hi
    exact ⟨_, mem_mapIdx.mpr ⟨i, hlt, rfl⟩, rfl⟩
  obtain ⟨g', hg', hv⟩ := mem_flatMap.mp hv
  obtain ⟨s, hs, rfl⟩ := List.mem_map.mp hv
  obtain ⟨hid, hkey⟩ := of_decide_eq_true he
  rw [huniq g' hg' hkey, ← hid]

theorem Static.start (hkeys : gs.map CudGraph.key = inits.map Prod.fst) :
    Static ports inits (System.start ports gs) := by
  have hpeer : ∀ p ∈ (System.start ports gs).peers, ∃ port,
      p = ⟨gs.foldl Node.addUfs (freshClient port), [], []⟩ := by
    intro p hp
    obtain ⟨port, -, rfl⟩ := List.mem_map.mp hp
    exact ⟨port, rfl⟩
  refine ⟨?_, fun p hp => ?_, ?_, ?_, ?_, fun p hp argv hargv => ?_⟩
  · rw [System.start, List.map_map]
    refine (map_congr_left fun port _ => ?_).trans (List.map_id ports)
    rw [Function.comp_apply, foldl_addUfs_frame]
    rfl
  · obtain ⟨port, rfl⟩ := hpeer p hp
    rw [foldl_addUfs_frame]
    exact ⟨rfl, rfl, rfl⟩
  · rw [System.start, foldl_addUfs_frame]
    rfl
  · rw [System.start, foldl_addUfs_frame]
    rfl
  · rw [System.start, sspacelist_foldl_addUfs gs rfl, freshServer, getD_none, nil_append,
      map_flatMap]
    have hspaces : ∀ g : CudGraph, ((serverSpaces (ports.mapIdx fun i port => ⟨i, port, false⟩) g).map
        fun s => (s.id, s.key)) = ports.map fun port => (port, g.key) := by
      intro g
      refine ext_getElem? fun i => ?_
      simp only [serverSpaces, getElem?_map, getElem?_mapIdx, Option.map_map]
      rfl
    simp only [hspaces]
    have := congrArg (List.flatMap fun k : Sds => ports.map fun port => (port, k)) hkeys
    rwa [flatMap_map, flatMap_map] at this
  obtain ⟨port, rfl⟩ := hpeer p hp
  exact absurd hargv not_mem_nil

/-- The invariant of a key holds before the first operation. -/
theorem KeyInv.start {x : Sds × Sds} (hnodup : (gs.map CudGraph.key).Nodup) (hg : g ∈ gs)
    (hkey : g.key = x.1) (hshows : GraphShows (elementsOf x.2) g (denote x.2)) :
    KeyInv ports x.1 x.2 (System.start ports gs) (updateVerticeUfs g).length []
      (updateVerticeUfs g) := by
  refine ⟨⟨.nil, fun _ h => absurd h not_mem_nil⟩, fun i p hp => ?_⟩
  have hS := hshows.updateVerticeUfs
  rw [System.start, getElem?_map, map_eq_some_iff] at hp
  obtain ⟨port, hport, rfl⟩ := hp
  have hgraph := graph_foldl_addUfs (n := freshClient port) hnodup hg rfl
  obtain ⟨hcver, hsver⟩ := System.start_spaces hnodup hg (mem_of_getElem? hport)
  have hnode : (gs.foldl Node.addUfs (freshClient port)).port = port := by
    rw [foldl_addUfs_frame]
    rfl
  rw [hkey] at hgraph hcver hsver
  have hchan : chanOf x.1 ⟨gs.foldl Node.addUfs (freshClient port), [], []⟩ = fun _ => [] := by
    funext s
    cases s <;> rfl
  refine ⟨⟨LinkState.start (updateVerticeUfs g), fun _ => [Vertice.create (updateVerticeUfs g)], []⟩,
    ?_, ⟨?_, g, hgraph, hkey, ?_, rfl⟩, ?_, ⟨rfl, rfl, .nil, rfl⟩, fun _ h => absurd h not_mem_nil,
    fun _ => hS.denote_eq, rfl⟩
  · rw [hchan]
    exact Link.start x.1 hS
  · rw [hcver, clientSpace, hkey]
  · rw [show (LinkState.start (updateVerticeUfs g)).lastContent .r = updateVerticeUfs g from rfl,
      hS.denote_eq]
    exact hshows
  simp only [hnode]
  exact hsver

/-- `uinit` accepts well formed contents. -/
theorem exists_graphs (hwf : ∀ x ∈ inits, WellFormed x.2) :
    ∃ gs, List.Forall₂ (fun x g => uinitGraph x.1 x.2 = .ok g ∧ g.key = x.1 ∧
      GraphShows (elementsOf x.2) g (denote x.2)) inits gs := by
  have hspec := fun x hx => uinitGraph_spec x.1 (hwf x hx)
  obtain ⟨gs, -, hall⟩ := mapM_ok (f := fun x : Sds × Sds => uinitGraph x.1 x.2) (l := inits)
    fun x hx => (hspec x hx).imp fun _ h => h.1
  refine ⟨gs, ((forall₂_and_left inits gs).mpr ⟨hspec, hall⟩).imp ?_⟩
  rintro x g ⟨⟨g', hg', hshows, hkey⟩, hg⟩
  rw [hg, Except.ok.injEq] at hg'
  subst hg'
  exact ⟨hg, hkey, hshows⟩

/-- **The system starts**, and the invariant holds. -/
theorem Inv.boot (hc : ConfigOk ports inits) :
    ∃ sys, System.boot ports inits = .ok sys ∧ Inv ports inits sys ∧
      (∀ p ∈ sys.peers, p.node.opNum = 0) ∧ ∀ x ∈ inits, ∃ g, sys.server.graph x.1 = some g ∧
        GraphShows (elementsOf x.2) g (denote x.2) := by
  obtain ⟨gs, hgs⟩ := exists_graphs hc.wellFormed
  have hkeys : gs.map CudGraph.key = inits.map Prod.fst := map_forall₂ hgs fun _ _ h => h.2.1
  refine ⟨_, System.boot_eq hc.keys (hgs.imp fun _ _ h => ⟨h.1, h.2.1⟩), ⟨Static.start hkeys,
    fun x hx => ?_⟩, fun p hp => ?_, fun x hx => ?_⟩
  · obtain ⟨g, hg, -, hkey, hshows⟩ := exists_mem_forall₂ hgs hx
    exact ⟨_, _, _, KeyInv.start (hkeys ▸ hc.keys) hg hkey hshows⟩
  · obtain ⟨port, -, rfl⟩ := List.mem_map.mp hp
    rw [foldl_addUfs_frame]
    rfl
  obtain ⟨g, hg, -, hkey, hshows⟩ := exists_mem_forall₂ hgs hx
  exact ⟨g, hkey ▸ graph_foldl_addUfs (hkeys ▸ hc.keys) hg rfl, hshows⟩

end UfsRedis
