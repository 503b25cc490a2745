import UfsRedis.Protocol.Link
import UfsRedis.Ufs.Control
import UfsRedis.Ufs.GraphPartition

/-!
# Commands on a link

What `localProc`, `remoteProc` and `serverProc` do, for a node whose state space of the key is an
end of a link.
-/

namespace UfsRedis

open Lib Coord Option Function List

/-! ## What a node has for a key -/

/-- The state space of a client and a key, among those of the server. -/
def spaceAt (spaces : List Verlist) (id : Nat) (key : Sds) : Option Verlist :=
  spaces.find? fun s => s.id = id ∧ s.key = key

namespace Node

/-- The graph of a key. -/
def graph (n : Node) (key : Sds) : Option CudGraph := n.ufslist.bind (·.find? (·.key = key))

/-- The state space of a key at a client. -/
def cver (n : Node) (key : Sds) : Option CVerlist := n.cspacelist.bind (·.find? (·.key = key))

/-- The state space of a key at the server, for a client. -/
def sver (n : Node) (id : Nat) (key : Sds) : Option Verlist :=
  n.sspacelist.bind (spaceAt · id key)

/-- Nothing but the state of `key`, and the operation number, is different. -/
structure Frame (key : Sds) (n n' : Node) : Prop where
  port : n'.port = n.port
  masterhost : n'.masterhost = n.masterhost
  slaveRo : n'.slaveRo = n.slaveRo
  masterUp : n'.masterUp = n.masterUp
  slaves : n'.slaves = n.slaves
  graph : ∀ k ≠ key, n'.graph k = n.graph k
  cver : ∀ k ≠ key, n'.cver k = n.cver k
  sver : ∀ id, ∀ k ≠ key, n'.sver id k = n.sver id k

variable {n : Node} {key k : Sds} {g g' : CudGraph} {V : Space} {cv : CVerlist}

theorem getUfs_eq (h : n.graph key = some g) : getUfs n key = .ok (some g) := by
  rw [graph, bind_eq_some_iff] at h
  obtain ⟨l, hl, hg⟩ := h
  rw [getUfs, hl, deref_some, ok_bind, hg]

theorem locateCVerlist_eq (h : n.cver key = some cv) : locateCVerlist n key = .ok (some cv) := by
  rw [cver, bind_eq_some_iff] at h
  obtain ⟨l, hl, hg⟩ := h
  rw [locateCVerlist, hl, deref_some, ok_bind, hg]

theorem graph_setUfs_self (h : n.graph key = some g) (hk : g'.key = key) :
    (setUfs n key g').graph key = some g' := by
  rw [graph, bind_eq_some_iff] at h
  obtain ⟨l, hl, hg⟩ := h
  rw [graph, setUfs, hl, map_some, bind_some,
    find?_updateFirst_self fun _ _ => by simpa using hk, hg, map_some]

theorem graph_setUfs_ne (hk : g'.key = key) (hne : k ≠ key) :
    (setUfs n key g').graph k = n.graph k := by
  rw [graph, graph, setUfs]
  obtain _ | l := n.ufslist
  · rfl
  refine find?_updateFirst_of_disjoint (fun g hg => ?_) fun _ _ => ?_
  · simp only [decide_eq_true_eq] at hg ⊢
    exact fun h => hne (h.symm.trans hg)
  simp only [decide_eq_true_eq]
  exact fun h => hne (h.symm.trans hk)

theorem cver_setCVertices_self (h : n.cver key = some cv) :
    (setCVertices n key V).cver key = some { cv with vertices := V } := by
  rw [cver, bind_eq_some_iff] at h
  obtain ⟨l, hl, hg⟩ := h
  have := find?_updateFirst_self (p := fun s : CVerlist => s.key = key) (l := l)
    (f := fun s => { s with vertices := V }) fun _ h => h
  rw [cver, setCVertices, hl, map_some, bind_some, this, hg, map_some]

theorem cver_setCVertices_ne (hne : k ≠ key) : (setCVertices n key V).cver k = n.cver k := by
  rw [cver, cver, setCVertices]
  obtain _ | l := n.cspacelist
  · rfl
  refine find?_updateFirst_of_disjoint (fun s hs => ?_) fun s hs => ?_
  · simp only [decide_eq_true_eq] at hs ⊢
    exact fun h => hne (h.symm.trans hs)
  simp only [decide_eq_true_eq] at hs ⊢
  exact fun h => hne (h.symm.trans hs)

theorem frame_set (hk : g'.key = key) (opNum : Nat) :
    Frame key n (setCVertices (setUfs { n with opNum := opNum } key g') key V) where
  port := rfl
  masterhost := rfl
  slaveRo := rfl
  masterUp := rfl
  slaves := rfl
  graph _ hne := graph_setUfs_ne (n := { n with opNum := opNum }) hk hne
  cver _ hne := cver_setCVertices_ne (n := setUfs { n with opNum := opNum } key g') hne
  sver _ _ _ := rfl

end Node

/-! ## Messages -/

def cmdName : OpType → Sds
  | .union => unionCmd
  | .split => splitCmd

variable {E argv : List Sds} {op : UfsOp} {key : Sds} {n : Node}

section

variable {key oid ctx : Sds}

theorem keyArg_encode : keyArg (encode key op oid ctx) = .ok key := by
  unfold encode
  cases op.optype <;> rfl

theorem parseArgs_encode (hop : OpOk E op) :
    parseArgs (encode key op oid ctx) = .ok (op.argv1, op.argv2, oid, ctx) := by
  cases hop <;> rfl

theorem arg_zero_encode : arg (encode key op oid ctx) 0 = .ok (cmdName op.optype) := by
  unfold encode
  cases op.optype <;> rfl

theorem remoteOp_eq (hop : OpOk E op) :
    (if cmdName op.optype = unionCmd then (⟨.union, op.argv1, op.argv2⟩ : UfsOp)
      else splitOp op.argv1) = op := by
  cases hop <;> rfl

theorem localOp_encode (hop : OpOk E op) : localOp (encode key op oid ctx) = .ok op := by
  cases hop <;> rfl

end

/-! ## Commands of a user -/

/-- A single-element command `union x y key` or `split x key`, and its operation. -/
inductive LocalCmd (key : Sds) : UfsOp → List Sds → Prop
  | union {x y : Sds} (hx : ',' ∉ x) (hy : ',' ∉ y) :
    LocalCmd key (unionOp x y) [unionCmd, x, y, key]
  | split {x : Sds} (hx : ',' ∉ x) : LocalCmd key (splitOp x) [splitCmd, x, key]

section

variable {g g' : CudGraph} {p : Setoid Sds}

variable (h : LocalCmd key op argv)
include h

theorem LocalCmd.keyArg : keyArg argv = .ok key := by
  cases h <;> rfl

theorem LocalCmd.localOp : localOp argv = .ok op := by
  cases h <;> rfl

theorem LocalCmd.localArgs (oid oids : Sds) :
    localArgs argv oid oids = .ok (encode key op oid oids) := by
  cases h <;> rfl

theorem LocalCmd.localExec (hg : n.graph key = some g)
    (hexec : execOp g op = .ok g') (oid oids : Sds) :
    localExec n (encode key op oid oids) = .ok (setUfs n key g', true) := by
  cases h with
  | @union x y =>
    simp only [UfsRedis.localExec, arg, UfsRedis.keyArg, encode, unionOp, getElem?_cons_zero,
      ok_bind, getLast?_cons_cons, getLast?_singleton, if_true, Node.getUfs_eq hg,
      deref_some, getElem?_cons_succ, getD_some]
    simp only [execOp, unionOp, deref_some, ok_bind] at hexec
    rw [hexec, ok_bind]
  | @split x =>
    have hne : splitCmd ≠ unionCmd := by decide
    simp only [UfsRedis.localExec, arg, UfsRedis.keyArg, encode, splitOp, getElem?_cons_zero,
      ok_bind, getLast?_cons_cons, getLast?_singleton, hne, if_false, if_true,
      Node.getUfs_eq hg, deref_some, getElem?_cons_succ]
    simp only [execOp, splitOp] at hexec
    rw [hexec, ok_bind]

/-- The check accepts single-element operations on existing elements, and rejects all others. -/
theorem LocalCmd.checkArgv (hg : n.graph key = some g) (hshow : GraphShows E g p) :
    (∃ e, checkArgv n argv = .ok (some e) ∧ ¬ OpOk E op) ∨
      (checkArgv n argv = .ok none ∧ OpOk E op) := by
  cases h with
  | @union x y hx hy =>
    have hcheck : UfsRedis.checkArgv n [unionCmd, x, y, key] = checkUnionArgv g x y := by
      simp [UfsRedis.checkArgv, UfsRedis.keyArg, Node.getUfs_eq hg, arg]
    have hsx : isSet x = false := by simp [isSet, hx]
    have hsy : isSet y = false := by simp [isSet, hy]
    rw [hcheck]
    simp only [checkUnionArgv, hshow.existElement, hsx, hsy, decide_eq_true_eq]
    split
    · by_cases h1 : x ≠ star ∧ x ∉ E
      · refine .inl ⟨_, if_pos h1, fun hop => ?_⟩
        cases hop with | union hx _ => exact hx.elim h1.2 h1.1
      rw [if_neg h1]
      by_cases h2 : y ≠ star ∧ y ∉ E
      · refine .inl ⟨_, if_pos h2, fun hop => ?_⟩
        cases hop with | union _ hy => exact hy.elim h2.2 h2.1
      rw [if_neg h2]
      refine .inr ⟨rfl, .union ?_ ?_⟩
      · by_contra hno
        exact h1 ⟨fun h => hno (.inr h), fun h => hno (.inl h)⟩
      by_contra hno
      exact h2 ⟨fun h => hno (.inr h), fun h => hno (.inl h)⟩
    by_cases hE : x ∈ E ∧ y ∈ E
    · exact .inr ⟨by simp [hE], .union (.inl hE.1) (.inl hE.2)⟩
    refine .inl ⟨.argvnoexistallelems, by simp [if_neg hE], fun hop => ?_⟩
    next hst =>
    obtain ⟨hx, hy⟩ := not_or.mp hst
    cases hop with | union h1 h2 => exact hE ⟨h1.resolve_right hx, h2.resolve_right hy⟩
  | @split x hx =>
    have hne : splitCmd ≠ unionCmd := by decide
    have hcheck : UfsRedis.checkArgv n [splitCmd, x, key] = checkSplitArgv g x := by
      simp [UfsRedis.checkArgv, UfsRedis.keyArg, Node.getUfs_eq hg, arg, hne]
    have hsx : isSet x = false := by simp [isSet, hx]
    rw [hcheck]
    simp only [checkSplitArgv, hshow.existElement, hsx, decide_eq_true_eq, Bool.false_eq_true,
      if_false]
    by_cases hE : x ∈ E
    · exact .inr ⟨by rw [if_pos hE], .split hE⟩
    · refine .inl ⟨_, if_neg hE, fun hop => ?_⟩
      cases hop with | split hx => exact hE hx

end

/-! ## The client -/

/-- The client's end of a link: its state space, and its graph, which has the partition of the last
vertice. -/
structure ClientEnd (E : List Sds) (ℓ : Nat) (key : Sds) (L : LinkState) (n : Node) (V : Space) :
    Prop where
  cver : n.cver key = some ⟨key, ℓ, V⟩
  graph : ∃ g, n.graph key = some g ∧ g.key = key ∧ GraphShows E g (denote (L.lastContent .r)) ∧
    (updateVerticeUfs g).length = ℓ

variable {ℓ : Nat} {L : LinkState} {V : Side → Space} {chan : Side → List (List Sds)}

def nextRec (L : LinkState) (n : Node) (op : UfsOp) : OpRec :=
  ⟨oidText n.port (n.opNum + 1), L.arrived .r, op⟩

variable (hlink : Link E ℓ key L V chan) (hend : ClientEnd E ℓ key L n (V .r))
include hlink hend

theorem localProc_spec
    (hcmd : LocalCmd key op argv) (hport : n.port ≤ 16378) (hnum : n.opNum < 9999)
    (hoids : (L.H.push .l (nextRec L n op)).OidsOk) :
    (∃ e, localProc n argv = .ok (n, ⟨argv, false, some (.err e)⟩)) ∨
    ∃ n' V' A os, localProc n argv =
        .ok (n', ⟨encode key op (nextRec L n op).oid (ctxText os), true, some .ok⟩) ∧
      Node.Frame key n n' ∧ n'.opNum = n.opNum + 1 ∧ OpOk E op ∧
      ClientEnd E ℓ key (L.send .r (nextRec L n op) A) n' V' ∧
      Link E ℓ key (L.send .r (nextRec L n op) A) (update V .r V') (update chan .l
          (chan .l ++ [encode key op (nextRec L n op).oid (ctxText os)])) ∧
      (L.cells .r).Extends (Mem (L.hist .r).ctxs) A ∧ Space.EdgesKept (V .r) V' := by
  obtain ⟨g, hg, hgkey, hshow, hglen⟩ := hend.graph
  rcases hcmd.checkArgv hg hshow with ⟨e, he, -⟩ | ⟨hcheck, hop⟩
  · refine .inl ⟨e, ?_⟩
    simp [localProc, hcmd.keyArg, Node.locateCVerlist_eq hend.cver, he]
  refine .inr ?_
  have hgrid := hlink.grid .r
  obtain ⟨g', hexec, hshow', hgkey'⟩ := hshow.execOp hop
  have hfuel : (V .r).length < (L.cells .r).ix zero + ((V .r).length + 1) := by
    rw [hgrid.layout.ix_zero]; omega
  have hnil : ([] : List Sds).Perm ((L.hist .r).oids zero) := by
    simp [History.oids, Coord.zero]
  obtain ⟨os, hcalc, hos⟩ := hgrid.layout.calculateOids hgrid.stair hgrid.layout.zero hfuel hnil
  rw [hgrid.layout.ix_zero, ctxText_nil] at hcalc
  have hlen' : (updateVerticeUfs g').length = ℓ := by
    rw [hshow.length_updateVerticeUfs hshow', hglen]
  have hS := hshow'.updateVerticeUfs
  obtain ⟨V', A, hadd, hlink', hext, hkept, hlast⟩ := hlink.send (s := .r) (r := nextRec L n op)
    (fun _ => .ok (updateVerticeUfs g')) hop rfl hoids hos (fun _ _ => rfl) hlen' hS
  have hoid : createOid n.port (n.opNum + 1) = .ok (nextRec L n op).oid :=
    createOid_eq hport (by omega)
  have hg1 : ({ n with opNum := n.opNum + 1 } : Node).graph key = some g := hg
  have hg2 := Node.graph_setUfs_self hg1 (hgkey'.trans hgkey)
  refine ⟨setCVertices (setUfs { n with opNum := n.opNum + 1 } key g') key V', V', A, os, ?_,
    Node.frame_set (hgkey'.trans hgkey) _, rfl, hop, ⟨?_, g', hg2, hgkey'.trans hgkey, ?_, hlen'⟩,
    hlink', hext, hkept⟩
  · simp only [localProc, hcmd.keyArg, ok_bind, Node.locateCVerlist_eq hend.cver, deref_some,
      hcheck, hgrid.layout.ne_nil, if_false, hcalc, hoid, hcmd.localOp,
      hcmd.localArgs, hcmd.localExec hg1 hexec, Node.getUfs_eq hg2, if_true]
    rw [show addLast (V .r) .l op (nextRec L n op).oid _ = _ from hadd, ok_bind]
  · exact Node.cver_setCVertices_self (n := setUfs { n with opNum := n.opNum + 1 } key g')
      (V := V') hend.cver
  rw [hlast, hS.denote_eq]
  exact hshow'

theorem remoteProc_spec {rest} (hchan : chan .r = argv :: rest) :
    ∃ n' V' A, remoteProc n argv = .ok (n', ⟨argv, true, some .ok⟩) ∧ Node.Frame key n n' ∧
      n'.opNum = n.opNum ∧ ClientEnd E ℓ key (L.receive .r A) n' V' ∧
      Link E ℓ key (L.receive .r A) (update V .r V') (update chan .r rest) ∧
      (L.cells .r).Extends (Mem (L.hist .r).ctxs) A ∧ Space.EdgesKept (V .r) V' := by
  obtain ⟨g, hg, hgkey, hshow, hglen⟩ := hend.graph
  obtain ⟨r, os, V', A, os', -, rfl, hop, hrec, hlink', hext, hkept, -,
    ⟨hop', -, v, i, hv, hedge⟩, hfrom⟩ := hlink.receive hchan
  obtain ⟨g', hexec, hshow', hgkey'⟩ := hshow.execOp hop'
  have hgrid := hlink.grid .r
  -- the content that the space has for the last vertice is what the graph has become
  obtain ⟨S, hS, -, hSshow⟩ := hgrid.sound.fromState hgrid.mem_last hop'
  have hcontent : (L.receive .r A).lastContent .r = S := by
    have := hfrom.symm.trans hS
    exact Except.ok.inj this
  refine ⟨setCVertices (setUfs n key g') key V', V', A, ?_,
    Node.frame_set (hgkey'.trans hgkey) n.opNum, rfl, ⟨?_, g', ?_, hgkey'.trans hgkey, ?_, ?_⟩,
    hlink', hext, hkept⟩
  · simp [remoteProc, keyArg_encode, Node.locateCVerlist_eq hend.cver, parseArgs_encode hop,
      arg_zero_encode, localOp_encode hop, remoteOp_eq hop, hrec, hv,
      show v.redge = _ from hedge, Node.getUfs_eq hg, hexec]
  · exact Node.cver_setCVertices_self (n := setUfs n key g') (V := V') hend.cver
  · exact Node.graph_setUfs_self hg (hgkey'.trans hgkey)
  · rw [hcontent, hSshow.denote_eq]
    exact hshow'
  · rw [hshow.length_updateVerticeUfs hshow', hglen]

end UfsRedis
