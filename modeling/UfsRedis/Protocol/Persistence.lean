import UfsRedis.Protocol.Aof

/-!
# What a restart restores

A node is started again from the file that `rdbSaveRio` has written, or from the append only file;
and a new client loads the first of these when it is connected. `rdbSaveRio` writes the keys of the
databases: the graphs of the union-find keys are not among them.
-/

namespace UfsRedis

open List

/-! ## `rdbSaveRio` -/

section

variable {V : Type}

/-- A key of a database, with its expire time. -/
structure KeyVal (V : Type) where
  key : Sds
  val : V
  expire : Option Int

/-- A Redis instance: its node, its databases, and the scripts it has cached. -/
structure Instance (V : Type) where
  node : Node
  dbs : List (List (KeyVal V))
  scripts : List Sds

/-- An entry of the file, by its opcode. -/
inductive RdbItem (V : Type) where
  | aux (key val : Sds)
  | selectDb (dbid : Nat)
  | resizeDb (dbSize expiresSize : Nat)
  | expireTimeMs (t : Int)
  | pair (key : Sds) (val : V)

/-- `rdbSaveKeyValuePair`: a key that has expired is left out. -/
def rdbSaveKeyValuePair (now : Int) (e : KeyVal V) : List (RdbItem V) :=
  match e.expire with
  | none => [.pair e.key e.val]
  | some t => if t < now then [] else [.expireTimeMs t, .pair e.key e.val]

def rdbSaveDb (now : Int) (db : List (KeyVal V) × Nat) : List (RdbItem V) :=
  if db.1.isEmpty then []
  else .selectDb db.2 :: .resizeDb db.1.length (db.1.countP (·.expire.isSome)) ::
    db.1.flatMap (rdbSaveKeyValuePair now)

/-- `rdbSaveRio`. `info` are the fields of `rdbSaveInfoAuxFields`, and `rsi` is whether there is
replication information. -/
def rdbSaveRio (now : Int) (info : List (Sds × Sds)) (rsi : Bool) (inst : Instance V) :
    List (RdbItem V) :=
  info.map (fun f => .aux f.1 f.2) ++ inst.dbs.zipIdx.flatMap (rdbSaveDb now) ++
    if rsi then inst.scripts.map (.aux ['l', 'u', 'a']) else []

/-! ## `rdbLoadRio` -/

/-- The state of the loop: the selected database, and the expire time of the next key. -/
structure Loading (V : Type) where
  inst : Instance V
  db : Nat
  expire : Option Int

/-- A step of the loop; `none` is `exit(1)`. Only a server drops keys that have expired. -/
def rdbLoadItem (now : Int) (st : Loading V) : RdbItem V → Option (Loading V)
  | .aux key val =>
    let scripts := if key = ['l', 'u', 'a'] then st.inst.scripts ++ [val] else st.inst.scripts
    some { st with inst := { st.inst with scripts := scripts }, expire := none }
  | .selectDb dbid =>
    if dbid < st.inst.dbs.length then some { st with db := dbid, expire := none } else none
  | .resizeDb _ _ => some { st with expire := none }
  | .expireTimeMs t => some { st with expire := some t }
  | .pair key val =>
    if !st.inst.node.masterhost && st.expire.any (· < now) then some { st with expire := none }
    else
      let dbs := st.inst.dbs.modify st.db (· ++ [⟨key, val, st.expire⟩])
      some { st with inst := { st.inst with dbs := dbs }, expire := none }

def rdbLoadRio (now : Int) (inst : Instance V) (items : List (RdbItem V)) : Option (Instance V) :=
  (items.foldlM (rdbLoadItem now) ⟨inst, 0, none⟩).map (·.inst)

theorem rdbLoadItem_node (now : Int) (st : Loading V) (item : RdbItem V)
    (h : ∀ dbid, item = .selectDb dbid → dbid < st.inst.dbs.length) :
    ∃ st', rdbLoadItem now st item = some st' ∧ st'.inst.node = st.inst.node ∧
      st'.inst.dbs.length = st.inst.dbs.length := by
  cases item with
  | aux key val => exact ⟨_, rfl, rfl, rfl⟩
  | selectDb dbid => exact ⟨_, if_pos (h dbid rfl), rfl, rfl⟩
  | resizeDb a b => exact ⟨_, rfl, rfl, rfl⟩
  | expireTimeMs t => exact ⟨_, rfl, rfl, rfl⟩
  | pair key val =>
    rw [rdbLoadItem]
    split
    · exact ⟨_, rfl, rfl, rfl⟩
    · exact ⟨_, rfl, rfl, length_modify _ _ _⟩

theorem foldlM_rdbLoadItem (now : Int) (items : List (RdbItem V)) (st : Loading V)
    (h : ∀ dbid, .selectDb dbid ∈ items → dbid < st.inst.dbs.length) :
    ∃ st', items.foldlM (rdbLoadItem now) st = some st' ∧ st'.inst.node = st.inst.node := by
  induction items generalizing st with
  | nil => exact ⟨st, rfl, rfl⟩
  | cons item items ih =>
    obtain ⟨st1, h1, hnode1, hlen1⟩ := rdbLoadItem_node now st item
      fun dbid hd => h dbid (by simp [hd])
    obtain ⟨st2, h2, hnode2⟩ := ih st1 fun dbid hd => by
      rw [hlen1]
      exact h dbid (by simp [hd])
    refine ⟨st2, ?_, hnode2.trans hnode1⟩
    rw [foldlM_cons, h1]
    exact h2

theorem mem_rdbSaveRio
    (h : .selectDb dbid ∈ rdbSaveRio now info rsi inst) : dbid < inst.dbs.length := by
  rw [rdbSaveRio, mem_append, mem_append] at h
  rcases h with (h | h) | h
  · simp at h
  · obtain ⟨⟨d, j⟩, hd, h⟩ := mem_flatMap.mp h
    rw [rdbSaveDb] at h
    split at h
    · simp at h
    have hj : dbid = j := by
      simp only [mem_cons, RdbItem.selectDb.injEq, mem_flatMap] at h
      rcases h with h | h | ⟨e, -, h⟩
      · exact h
      · exact absurd h nofun
      rw [rdbSaveKeyValuePair] at h
      split at h
      · simp at h
      · split at h <;> simp at h
    rw [hj]
    exact snd_lt_of_mem_zipIdx hd
  · split at h <;> simp at h

theorem rdbLoadRio_rdbSaveRio (now now' : Int) (info : List (Sds × Sds)) (rsi : Bool)
    (inst : Instance V) (hdbs : inst.dbs.length ≤ fresh.dbs.length) :
    ∃ inst', rdbLoadRio now' fresh (rdbSaveRio now info rsi inst) = some inst' ∧
      inst'.node = fresh.node := by
  obtain ⟨st, hst, hnode⟩ := foldlM_rdbLoadItem now' (rdbSaveRio now info rsi inst)
    ⟨fresh, 0, none⟩ fun dbid hd => Nat.lt_of_lt_of_le (mem_rdbSaveRio hd) hdbs
  exact ⟨st.inst, by rw [rdbLoadRio, hst, Option.map_some], hnode⟩

end

/-! ## After a restart -/

/-- `umembers` gives at `n'` what it gave at `n`, for every key of `n`. -/
def Restores (n n' : Node) : Prop :=
  ∀ key, (n.graph key).isSome →
    umembersCommand n' [umembersCmd, key] = umembersCommand n [umembersCmd, key]

/-- The node after a restart: its configuration, without links and without keys. -/
def Node.restart (n : Node) : Node :=
  { n with
    masterUp := false
    slaves := []
    opNum := 0
    ufslist := none
    cspacelist := none
    sspacelist := none }

section

variable {n n' n₀ : Node} {events : List StoreEvent} {s : Store}

theorem Restores.of_graph (h : ∀ k, n'.graph k = n.graph k) : Restores n n' := by
  intro key hkey
  obtain ⟨g, hg⟩ := Option.isSome_iff_exists.mp hkey
  rw [umembersCommand_eq (Node.getUfs_eq hg),
    umembersCommand_eq (Node.getUfs_eq ((h key).trans hg))]

theorem restores_iff_of_none (h : n'.ufslist = none) : Restores n n' ↔ ∀ key, n.graph key = none := by
  constructor
  · intro hr key
    by_contra hkey
    obtain ⟨g, hg⟩ := Option.ne_none_iff_exists'.mp hkey
    have herr : umembersCommand n' [umembersCmd, key] = .error .nullDeref := by
      have harg : arg [umembersCmd, key] 1 = .ok key := rfl
      rw [umembersCommand, harg, ok_bind, getUfs, h]
      rfl
    have := hr key (by rw [hg, Option.isSome_some])
    rw [herr, umembersCommand_eq (Node.getUfs_eq hg)] at this
    cases this
  intro hnone key hkey
  rw [hnone key] at hkey
  cases hkey

/-- The append only file restores what was there when its last command was appended. -/
def AofRestores (id port : Nat) (n₀ : Node) (s : Store) : Prop :=
  ∃ n, loadAppendOnlyFile id port n₀.restart s.file.buf = .ok n ∧ Restores s.saved n

theorem Mirrored.start (id port : Nat) (hu : n₀.ufslist = none) (hc : n₀.cspacelist = none) :
    Mirrored id port n₀.restart (Store.start n₀) := by
  refine ⟨⟨[], rfl, by simp, n₀.restart, rfl, fun k => ?_⟩, fun _ => rfl, fun _ k hk => ?_⟩
  · show n₀.restart.graph k = n₀.graph k
    rw [Node.graph, Node.graph, hu]
    rfl
  have hnone : (Store.start n₀).node.cver k = none := by
    rw [Node.cver, show (Store.start n₀).node.cspacelist = none from hc]
    rfl
  rw [hnone] at hk
  cases hk

/-- **What a restart restores.** The file of `rdbSaveRio` restores no union-find key. The append
only file restores them if until its last command only `uinit` has been executed, and each one is in
the file; and a server that has executed anything else cannot load it. -/
theorem restored_iff (hu : n₀.ufslist = none) (hc : n₀.cspacelist = none)
    (hrun : (Store.start n₀).run events = .ok s) :
    (∀ {V : Type} (now now' : Int) (info : List (Sds × Sds)) (rsi : Bool)
        (dbs : List (List (KeyVal V))) (scripts : List Sds) (fresh : Instance V),
      dbs.length ≤ fresh.dbs.length → fresh.node.ufslist = none →
      ∃ inst, rdbLoadRio now' fresh (rdbSaveRio now info rsi ⟨s.node, dbs, scripts⟩) = some inst ∧
        (Restores s.node inst.node ↔ ∀ key, s.node.graph key = none)) ∧
    (OnlyUinits (.start n₀) events → ∀ id port, AofRestores id port n₀ s) ∧
    (n₀.masterhost = false → ∀ id port, AofRestores id port n₀ s → OnlyUinits (.start n₀) events) := by
  refine ⟨?_, fun hevents id port => ?_, fun hm id port ⟨n, hn, _⟩ => ?_⟩
  · intro V now now' info rsi dbs scripts fresh hdbs hfresh
    obtain ⟨inst, hinst, hnode⟩ :=
      rdbLoadRio_rdbSaveRio now now' info rsi ⟨s.node, dbs, scripts⟩ hdbs
    exact ⟨inst, hinst, restores_iff_of_none (hnode ▸ hfresh)⟩
  · obtain ⟨n, hn, hgraph⟩ := (Mirrored.start id port hu hc).run hevents hrun
    exact ⟨n, hn, .of_graph hgraph⟩
  obtain ⟨cmds, hbuf, hne, honly⟩ := Store.run_server hm hrun
  rw [hbuf] at hn
  rw [show (Store.start n₀).file.buf = [] from rfl, nil_append,
    loadAppendOnlyFile_flatMap hne] at hn
  have hstart : NoSpaces n₀.restart := ⟨hm, rfl, rfl⟩
  exact honly (not_isOp_of_replay hstart hn)

end

/-! ## Histories -/

/-- `uinit key members`, from a user. -/
def uinitEvent (key members : Sds) : StoreEvent := .command (userClient [uinitCmd, key, members]) 0

/-- A server that has executed `uinit` only. -/
theorem restored_iff_uinit :
    ∃ s, (Store.start (freshServer [6380])).run [uinitEvent ['k'] ['a', '/', 'b']] = .ok s ∧
      ∀ id port, AofRestores id port (freshServer [6380]) s := by
  refine exists_ok_imp (P := fun _ => True) (by decide +kernel) fun s hs _ =>
    (restored_iff rfl rfl hs).2.1 (.inr ⟨fun cmd n o hd _ _ => ?_, fun _ _ => trivial⟩)
  have huinit : dispatch [uinitCmd, ['k'], ['a', '/', 'b']] = some .uinit := by decide
  exact ⟨Option.some.inj (hd.symm.trans huinit), rfl⟩

/-- The reply to `umembers k`. -/
def membersOf (n : Node) : Except Fault Sds := umembersCommand n [umembersCmd, ['k']]

/-- After `uinit k a/b` the file of `rdbSaveRio` has no key `k`. After `union a b k` at a client, or
of a client at a server, the append only file cannot be loaded. And an operation of the server at a
client is not in the file. -/
theorem not_restored :
    (∃ s, (Store.start (freshServer [6380])).run [uinitEvent ['k'] ['a', '/', 'b']] = .ok s ∧
      membersOf s.node = .ok ['a', '/', 'b'] ∧
      (rdbLoadRio 0 (⟨(freshServer [6380]).restart, [[]], []⟩ : Instance Unit)
        (rdbSaveRio 0 [] true ⟨s.node, [[]], []⟩)).map (fun inst => membersOf inst.node) =
          some (.error .nullDeref)) ∧
    (∃ s, (Store.start (freshClient 6380)).run [uinitEvent ['k'] ['a', '/', 'b'],
        .command (userClient [unionCmd, ['a'], ['b'], ['k']]) 0] = .ok s ∧
      membersOf s.saved = .ok ['a', ',', 'b'] ∧
      (loadAppendOnlyFile 0 0 (freshClient 6380).restart s.file.buf).map membersOf =
        .error (.fault .indexBounds)) ∧
    (∃ s, (Store.start (freshServer [6380])).run [uinitEvent ['k'] ['a', '/', 'b'],
        .command (slaveClient 0 6380
          [unionCmd, ['a'], ['b'], ['1', '_', '1'], ['i', 'n', 'i', 't'], ['k']]) 0] = .ok s ∧
      (loadAppendOnlyFile 0 0 (freshServer [6380]).restart s.file.buf).map membersOf =
        .error (.fault .nullDeref)) ∧
    (∃ s, (Store.start (freshClient 6380)).run [uinitEvent ['k'] ['a', '/', 'b'],
        .command (masterClient
          [unionCmd, ['a'], ['b'], ['2', '_', '1'], ['i', 'n', 'i', 't'], ['k']]) 0,
        uinitEvent ['j'] ['c']] = .ok s ∧
      membersOf s.saved = .ok ['a', ',', 'b'] ∧
      (loadAppendOnlyFile 0 0 (freshClient 6380).restart s.file.buf).map membersOf =
        .ok (.ok ['a', '/', 'b'])) := by
  refine ⟨?_, ?_, ?_, ?_⟩ <;> decide +kernel

end UfsRedis
