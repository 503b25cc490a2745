import UfsRedis.Protocol.Uinit
import UfsRedis.Ufs.Query

/-!
# `uinit` at several clients

A client executes `uinit` before the server has seen it, and keeps the first graph that it has made
for a key, whoever sent the command.
-/

namespace UfsRedis

open List Lib Option

/-- The elements and the classes of two graphs are the same. -/
def SamePartition (g h : CudGraph) : Prop :=
  (∀ x, x ∈ g.names ↔ x ∈ h.names) ∧ g.partition = h.partition

/-- The clients that know the key have the same partition. -/
def AgreeOn (key : Sds) (sys : System) : Prop :=
  ∀ p ∈ sys.peers, ∀ q ∈ sys.peers, ∀ g h, p.node.graph key = some g → q.node.graph key = some h →
    SamePartition g h

/-- The commands that a step accepts from a user, with their client: those for a key that the client
does not know. -/
def newlyAccepted (sys : System) : Event → List (Nat × List Sds)
  | .user i argv =>
    match sys.peers[i]? with
    | some p => if p.node.cver (uinitKey argv) = none then [(i, argv)] else []
    | none => []
  | .toServer _ => []
  | .toClient _ => []

/-- A system, and the commands that were accepted from users. -/
structure InitRun where
  sys : System
  accepted : List (Nat × List Sds)
  deriving DecidableEq

/-- One step, with commands processed by `uinitCommand`. -/
def InitRun.step (r : InitRun) (e : Event) : Except Fault InitRun := do
  .ok ⟨← r.sys.stepBy uinitCommand e, r.accepted ++ newlyAccepted r.sys e⟩

def InitRun.run (ports : List Nat) (events : List Event) : Except Fault InitRun :=
  events.foldlM InitRun.step ⟨System.start ports [], []⟩

/-! ## Tables after `uinit` -/

section

variable {n : Node} {g : CudGraph} {k : Sds}

theorem find?_concat {α : Type} {q : α → Bool} {l : List α} {a : α} :
    (l ++ [a]).find? q = (l.find? q).or (if q a then some a else none) := by
  rw [find?_append, find?_singleton]

theorem Node.graph_concat (n' : Node) (h : n'.ufslist = some (n.ufslist.getD [] ++ [g])) :
    n'.graph k = (n.graph k).or (if g.key = k then some g else none) := by
  rw [Node.graph, h, bind_some, find?_concat, Node.graph, bind_eq_getD_find?]
  simp

theorem Node.cver_addUfs (hm : n.masterhost = true) :
    (n.addUfs g).cver k = (n.cver k).or (if g.key = k then some (clientSpace g) else none) := by
  rw [Node.cver, Node.addUfs, if_pos hm, bind_some, find?_concat, Node.cver, bind_eq_getD_find?]
  by_cases hk : g.key = k <;> simp [clientSpace, hk]

theorem Node.cver_eq_none : n.cver k = none ↔ ∀ v ∈ n.cspacelist.getD [], v.key ≠ k := by
  rw [Node.cver, bind_eq_getD_find?, find?_eq_none]
  simp

/-- The tables of a client after `uinit`: the first entry of a key stays. -/
structure FirstKept (n : Node) (argv : List Sds) (g : CudGraph) (n' : Node) (o : Outcome) :
    Prop where
  masterhost : n'.masterhost = true
  sent : o.argv = argv
  flag : o.flagUfs = true → n.cver (uinitKey argv) = none
  graph : ∀ k, n'.graph k = (n.graph k).or (if uinitKey argv = k then some g else none)
  cver : ∀ k, n'.cver k = (n.cver k).or (if uinitKey argv = k then some (clientSpace g) else none)

theorem uinitCommand_client (hm : n.masterhost = true)
    (hc : c.argv.length = 3) : ∃ n' o g, uinitCommand n c = .ok (n', o) ∧
      uinitGraph (uinitKey c.argv) (uinitArg c.argv) = .ok g ∧ FirstKept n c.argv g n' o := by
  obtain ⟨name, key, S, hargv⟩ := length_eq_three.mp hc
  obtain ⟨g, hg, hkey⟩ := exists_uinitGraph key S
  have hk : uinitKey c.argv = key := by rw [hargv]; rfl
  have hS : uinitArg c.argv = S := by rw [hargv]; rfl
  have hgraph : ∀ (n' : Node), n'.ufslist = some (n.ufslist.getD [] ++ [g]) → ∀ k,
      n'.graph k = (n.graph k).or (if uinitKey c.argv = k then some g else none) := by
    intro n' hn' k
    rw [Node.graph_concat n' hn', hkey, hk]
  by_cases hold : n.cver key = none
  · refine ⟨_, _, g, uinitCommand_eq hargv hg hkey fun _ => Node.cver_eq_none.mp hold, hk ▸ hS ▸ hg,
      hm, rfl, fun _ => hk ▸ hold, hgraph _ rfl, fun k => ?_⟩
    rw [Node.cver_addUfs hm, hkey, hk]
  obtain ⟨v, hv⟩ := Option.ne_none_iff_exists'.mp hold
  have hex : ∃ v ∈ n.cspacelist.getD [], v.key = key := by
    by_contra hno
    exact hold (Node.cver_eq_none.mpr fun v hv hvk => hno ⟨v, hv, hvk⟩)
  refine ⟨_, _, g, uinitCommand_existing hargv hg hm hex, hk ▸ hS ▸ hg, hm, rfl,
    fun h => absurd h Bool.false_ne_true, hgraph _ rfl, fun k => ?_⟩
  change n.cver k = _
  by_cases hkk : key = k
  · rw [← hkk, hv, some_or]
  · rw [hk, if_neg hkk, or_none]

end

/-! ## The invariant -/

/-- A client has the graphs of commands in `accepted` only, and a state space for each. -/
structure Knows (accepted : List (Nat × List Sds)) (n : Node) : Prop where
  masterhost : n.masterhost = true
  graph : ∀ {k g}, n.graph k = some g →
    ∃ x ∈ accepted, uinitKey x.2 = k ∧ uinitGraph k (uinitArg x.2) = .ok g
  cver : ∀ {k}, n.cver k = none ↔ n.graph k = none

def Sent (accepted : List (Nat × List Sds)) (argv : List Sds) : Prop :=
  argv.length = 3 ∧ ∃ i, (i, argv) ∈ accepted

def Holds (n : Node) (argv : List Sds) : Prop :=
  ∃ g, uinitGraph (uinitKey argv) (uinitArg argv) = .ok g ∧ n.graph (uinitKey argv) = some g

/-- Everything at the clients and on the way is from `accepted`, and a client has the graphs of the
commands that it has accepted. -/
structure InitInv (accepted : List (Nat × List Sds)) (sys : System) : Prop where
  all : Everywhere (Knows accepted) (fun _ => True) (Sent accepted) (Sent accepted) sys
  own : ∀ x ∈ accepted, ∃ p, sys.peers[x.1]? = some p ∧ Holds p.node x.2

section

variable {A A' : List (Nat × List Sds)} {n n' : Node} {c : Client} {o : Outcome} {g : CudGraph}
  {sys : System} {i : Nat} {p p' : Peer} {argv : List Sds}

theorem Knows.mono (h : Knows A n) (hA : A ⊆ A') : Knows A' n where
  masterhost := h.masterhost
  graph hg := by
    obtain ⟨x, hx, hk⟩ := h.graph hg
    exact ⟨x, hA hx, hk⟩
  cver := h.cver

theorem Sent.mono (h : Sent A argv) (hA : A ⊆ A') : Sent A' argv := ⟨h.1, h.2.imp fun _ hi => hA hi⟩

theorem InitInv.mono (h : InitInv A sys) (hA : A ⊆ A') :
    Everywhere (Knows A') (fun _ => True) (Sent A') (Sent A') sys where
  server := trivial
  node p hp := (h.all.node p hp).mono hA
  up p hp argv hargv := (h.all.up p hp argv hargv).mono hA
  down p hp argv hargv := (h.all.down p hp argv hargv).mono hA

theorem FirstKept.holds (h : FirstKept n argv g n' o) (hh : Holds n argv') : Holds n' argv' := by
  obtain ⟨g', hg', hgraph⟩ := hh
  exact ⟨g', hg', by rw [h.graph, hgraph, some_or]⟩

section

variable (h : FirstKept n argv g n' o) (hg : uinitGraph (uinitKey argv) (uinitArg argv) = .ok g)
include h hg

theorem FirstKept.holds_new (hnew : n.graph (uinitKey argv) = none) : Holds n' argv :=
  ⟨g, hg, by rw [h.graph, hnew, none_or, if_pos rfl]⟩

theorem FirstKept.knows (hn : Knows A n)
    (hacc : n.cver (uinitKey argv) = none → ∃ i, (i, argv) ∈ A) : Knows A n' := by
  refine ⟨h.masterhost, fun {k g'} hg' => ?_, fun {k} => ?_⟩
  · rw [h.graph] at hg'
    cases hk : n.graph k with
    | some g'' =>
      rw [hk, some_or] at hg'
      exact hn.graph (hk.trans hg')
    | none =>
      rw [hk, none_or] at hg'
      split at hg'
      · next hkey =>
        subst hkey
        obtain ⟨i, hi⟩ := hacc (hn.cver.mpr hk)
        cases hg'
        exact ⟨_, hi, rfl, hg⟩
      · cases hg'
  rw [h.cver, h.graph, or_eq_none_iff, or_eq_none_iff, hn.cver]
  by_cases hk : uinitKey argv = k <;> simp [hk]

end

/-- One client is replaced by one that has the same graphs, and maybe more. -/
theorem own_set (p' : Peer) (h : ∀ x ∈ A, ∃ p, sys.peers[x.1]? = some p ∧ Holds p.node x.2)
    (hp : sys.peers[i]? = some p) (hkeep : ∀ {argv}, Holds p.node argv → Holds p'.node argv) :
    ∀ x ∈ A, ∃ q, (sys.peers.set i p')[x.1]? = some q ∧ Holds q.node x.2 := by
  intro x hx
  obtain ⟨q, hq, hholds⟩ := h x hx
  by_cases hxi : i = x.1
  · subst hxi
    rw [hp, some.injEq] at hq
    subst hq
    refine ⟨p', ?_, hkeep hholds⟩
    rw [getElem?_set_self (List.getElem?_eq_some_iff.mp hp).1]
  · exact ⟨q, by rw [getElem?_set_ne hxi, hq], hholds⟩

theorem InitInv.user (h : InitInv A sys) (hargv : argv.length = 3) :
    ∃ sys', sys.stepBy uinitCommand (.user i argv) = .ok sys' ∧
      InitInv (A ++ newlyAccepted sys (.user i argv)) sys' := by
  rcases hp : sys.peers[i]? with _ | p
  · refine ⟨sys, by rw [System.stepBy, hp], ?_⟩
    rw [newlyAccepted, hp, append_nil]
    exact h
  have hmem := mem_of_getElem? hp
  have hknows := h.all.node p hmem
  obtain ⟨n', o, g, hproc, hg, hkept⟩ :=
    uinitCommand_client (c := userClient argv) hknows.masterhost hargv
  refine ⟨_, System.stepBy_user hp hproc, ?_⟩
  set new := newlyAccepted sys (.user i argv) with hnew
  rw [newlyAccepted, hp] at hnew
  have hacc : p.node.cver (uinitKey argv) = none → (i, argv) ∈ A ++ new := by
    intro hc
    simp only [if_pos hc] at hnew
    rw [hnew]
    simp
  have hall := h.mono (subset_append_left A new)
  refine ⟨hall.set (hkept.knows hg (hknows.mono (subset_append_left A new)) fun hc =>
    ⟨i, hacc hc⟩) ?_ (hall.down p hmem), ?_⟩
  · simp only
    split
    · next hm =>
      intro m hmem'
      rcases mem_append.mp hmem' with hmem' | hmem'
      · exact hall.up p hmem m hmem'
      rw [mem_singleton.mp hmem', hkept.sent]
      refine ⟨hargv, i, hacc (hkept.flag ?_)⟩
      by_contra hf
      rw [Bool.not_eq_true] at hf
      rw [hf, propagate_false] at hm
      exact absurd hm not_mem_nil
    · exact hall.up p hmem
  -- the accepted commands are the old ones, and this one if the client has made its graph
  have hold := own_set { p with
    node := n'
    up := if .master ∈ propagate n' (userClient argv) o.flagUfs then p.up ++ [o.argv]
      else p.up } h.own hp fun hh => hkept.holds hh
  intro x hx
  rcases mem_append.mp hx with hx | hx
  · exact hold x hx
  by_cases hc : p.node.cver (uinitKey argv) = none
  · simp only [if_pos hc] at hnew
    rw [hnew, mem_singleton] at hx
    subst hx
    exact ⟨_, getElem?_set_self (List.getElem?_eq_some_iff.mp hp).1,
      hkept.holds_new hg (hknows.cver.mp hc)⟩
  simp only [if_neg hc] at hnew
  rw [hnew] at hx
  exact absurd hx not_mem_nil

theorem InitInv.toServer (h : InitInv A sys) :
    ∃ sys', sys.stepBy uinitCommand (.toServer i) = .ok sys' ∧ InitInv A sys' := by
  rcases hp : sys.peers[i]? with _ | p
  · exact ⟨sys, by rw [System.stepBy, hp], h⟩
  have hmem := mem_of_getElem? hp
  rcases hup : p.up with _ | ⟨argv, rest⟩
  · exact ⟨sys, by simp only [System.stepBy, hp, hup], h⟩
  have hups : ∀ m ∈ argv :: rest, Sent A m := hup ▸ h.all.up p hmem
  obtain ⟨hlen, hsent⟩ := hups argv (by simp)
  obtain ⟨n', o, hproc, -⟩ :=
    uinitCommand_spec (c := slaveClient i p.node.port argv) sys.server hlen
  refine ⟨_, System.stepBy_toServer hp hup hproc, ?_, fun x hx => ?_⟩
  · have hset : Everywhere (Knows A) (fun _ => True) (Sent A) (Sent A)
        { sys with peers := sys.peers.set i { p with up := rest } } :=
      h.all.set (h.all.node p hmem) (fun m hm => hups m (by simp [hm])) (h.all.down p hmem)
    refine hset.feed trivial fun _ => ?_
    rw [uinitCommand_argv hproc]
    exact ⟨hlen, hsent⟩
  obtain ⟨q, hq, hholds⟩ := own_set { p with up := rest } h.own hp (fun hh => hh) x hx
  rw [feedPeers, getElem?_mapIdx, hq, map_some]
  refine ⟨_, rfl, ?_⟩
  split <;> exact hholds

theorem InitInv.toClient (h : InitInv A sys) :
    ∃ sys', sys.stepBy uinitCommand (.toClient i) = .ok sys' ∧ InitInv A sys' := by
  rcases hp : sys.peers[i]? with _ | p
  · exact ⟨sys, by rw [System.stepBy, hp], h⟩
  have hmem := mem_of_getElem? hp
  rcases hdown : p.down with _ | ⟨argv, rest⟩
  · exact ⟨sys, by simp only [System.stepBy, hp, hdown], h⟩
  have hdowns : ∀ m ∈ argv :: rest, Sent A m := hdown ▸ h.all.down p hmem
  obtain ⟨hlen, hsent⟩ := hdowns argv (by simp)
  have hknows := h.all.node p hmem
  obtain ⟨n', o, g, hproc, hg, hkept⟩ :=
    uinitCommand_client (c := masterClient argv) hknows.masterhost hlen
  refine ⟨_, System.stepBy_toClient hp hdown hproc, ?_, ?_⟩
  · exact h.all.set (hkept.knows hg hknows fun _ => hsent) (h.all.up p hmem)
      fun m hm => hdowns m (by simp [hm])
  · exact own_set _ h.own hp fun hh => hkept.holds hh

end

/-! ## Runs -/

/-- The accepted commands of the key have the same partition. -/
def SameInits (key : Sds) (accepted : List (Nat × List Sds)) : Prop :=
  ∀ x ∈ accepted, ∀ y ∈ accepted, uinitKey x.2 = key → uinitKey y.2 = key → ∀ g h,
    uinitGraph key (uinitArg x.2) = .ok g → uinitGraph key (uinitArg y.2) = .ok h →
      SamePartition g h

section

variable {ports : List Nat} {events : List Event} {A : List (Nat × List Sds)} {sys : System}

theorem InitInv.start (ports : List Nat) : InitInv [] (System.start ports []) where
  all := by
    have hpeer : ∀ p ∈ (System.start ports []).peers, ∃ port, p = ⟨freshClient port, [], []⟩ := by
      intro p hp
      obtain ⟨port, -, rfl⟩ := mem_map.mp hp
      exact ⟨port, rfl⟩
    refine ⟨trivial, fun p hp => ?_, fun p hp => ?_, fun p hp => ?_⟩
    · obtain ⟨port, rfl⟩ := hpeer p hp
      exact ⟨rfl, fun h => absurd h nofun, iff_of_true rfl rfl⟩
    · obtain ⟨port, rfl⟩ := hpeer p hp
      exact fun argv hargv => absurd hargv not_mem_nil
    obtain ⟨port, rfl⟩ := hpeer p hp
    exact fun argv hargv => absurd hargv not_mem_nil
  own _ hx := absurd hx not_mem_nil

/-- **A run of `uinit` commands returns**, with the invariant. -/
theorem InitInv.run (ports : List Nat) (he : ∀ e ∈ events, UserHas UinitArgs e) :
    ∃ r, InitRun.run ports events = .ok r ∧ InitInv r.accepted r.sys := by
  obtain ⟨r, hr, hinv, -⟩ := foldlM_rule (P := fun r : InitRun => InitInv r.accepted r.sys)
    (Q := fun _ _ => True) (f := InitRun.step) (l := events)
    (b := ⟨System.start ports [], []⟩) (InitInv.start ports) fun r hr e hmem => by
      have hstep : ∃ sys', r.sys.stepBy uinitCommand e = .ok sys' ∧
          InitInv (r.accepted ++ newlyAccepted r.sys e) sys' := by
        cases e with
        | user i argv => exact hr.user (he _ hmem).1
        | toServer i =>
          rw [newlyAccepted, append_nil]
          exact hr.toServer
        | toClient i =>
          rw [newlyAccepted, append_nil]
          exact hr.toClient
      obtain ⟨sys', hsys', hinv'⟩ := hstep
      exact ⟨⟨sys', r.accepted ++ newlyAccepted r.sys e⟩, by rw [InitRun.step, hsys', ok_bind],
        hinv', trivial, fun _ h => h⟩
  exact ⟨r, hr, hinv⟩

theorem InitInv.agree (h : InitInv A sys) (key : Sds) : AgreeOn key sys ↔ SameInits key A := by
  constructor
  · intro hagree x hx y hy hxk hyk g g' hg hg'
    obtain ⟨p, hp, f, hf, hpf⟩ := h.own x hx
    obtain ⟨q, hq, f', hf', hqf⟩ := h.own y hy
    rw [hxk] at hf hpf
    rw [hyk] at hf' hqf
    rw [hg, Except.ok.injEq] at hf
    rw [hg', Except.ok.injEq] at hf'
    exact hagree p (mem_of_getElem? hp) q (mem_of_getElem? hq) g g' (hf ▸ hpf)
      (hf' ▸ hqf)
  intro hsame p hp q hq g g' hg hg'
  obtain ⟨x, hx, hxk, hxg⟩ := (h.all.node p hp).graph hg
  obtain ⟨y, hy, hyk, hyg⟩ := (h.all.node q hq).graph hg'
  exact hsame x hx y hy hxk hyk g g' hxg hyg

/-- **Concurrent `uinit` commands.** Every run returns, and in every state of it, with commands on
the way or not, the clients that know a key have the same partition iff the commands of the key that
clients have accepted from their users have the same partition. -/
theorem agreeOn_iff (he : ∀ e ∈ events, UserHas UinitArgs e) :
    ∃ r, InitRun.run ports events = .ok r ∧
      ∀ key, AgreeOn key r.sys ↔ SameInits key r.accepted := by
  obtain ⟨r, hr, hinv⟩ := InitInv.run ports he
  exact ⟨r, hr, hinv.agree⟩

end

/-- Two clients initialise a key at the same time, with `S` and `T`, and everything is delivered. -/
def bothInit (S T : Sds) : List Event :=
  [.user 0 [uinitCmd, ['k'], S], .user 1 [uinitCmd, ['k'], T], .toServer 0, .toServer 1,
    .toClient 0, .toClient 1]

theorem agreeOn_iff_same_set : ∃ r,
    InitRun.run [6380, 6381] (bothInit ['a', ',', 'b'] ['b', ',', 'a']) = .ok r ∧ ∀ key, AgreeOn key r.sys ↔ SameInits key r.accepted :=
  agreeOn_iff (by simp [bothInit, UserHas, UinitArgs, NulFree, uinitCmd])

/-- The clients keep what they have been given: the key has two partitions after all commands have
been delivered. -/
theorem inits_diverge :
    ∃ r, InitRun.run [6380, 6381] (bothInit ['a', ',', 'b'] ['a', '/', 'b']) = .ok r ∧
      r.sys.Quiet ∧ (r.sys.peers.map fun p => umembersCommand p.node [umembersCmd, ['k']]) =
        [.ok ['a', ',', 'b'], .ok ['a', '/', 'b']] := by
  decide +kernel

end UfsRedis
