import UfsRedis.Protocol.System
import UfsRedis.Lib.Fold

/-!
# What holds at every node

The rule for properties of single nodes and single messages, for any processing `proc` of the
commands.

* `System.stepBy proc`, `System.runBy proc`: a step and a sequence of them, with `proc` for the
  commands; `System.step` is `stepBy controlAlg`;
* `Everywhere P Q U D`: all clients have `P`, the server has `Q`, all commands on the way to the
  server have `U` and those on the way from it have `D`;
* `Everywhere.step`, `Everywhere.run`: it is kept, if `proc` keeps it at each kind of node.
-/

namespace UfsRedis

open List Lib

abbrev Proc := Node → Client → Except Fault (Node × Outcome)

/-- `Peer.exec` with the processing `proc`. -/
def Peer.execBy (proc : Proc) (p : Peer) (c : Client) : Except Fault Peer := do
  let (n, o, dests) ← call proc p.node c
  .ok { p with node := n, up := if .master ∈ dests then p.up ++ [o.argv] else p.up }

/-- `System.step` with the processing `proc`. -/
def System.stepBy (proc : Proc) (sys : System) : Event → Except Fault System
  | .user i argv =>
    match sys.peers[i]? with
    | none => .ok sys
    | some p => do .ok { sys with peers := sys.peers.set i (← p.execBy proc (userClient argv)) }
  | .toServer i =>
    match sys.peers[i]? with
    | none => .ok sys
    | some p =>
      match p.up with
      | [] => .ok sys
      | argv :: rest => do
        let (n, o, dests) ← call proc sys.server (slaveClient i p.node.port argv)
        .ok ⟨n, feedPeers dests o.argv (sys.peers.set i { p with up := rest })⟩
  | .toClient i =>
    match sys.peers[i]? with
    | none => .ok sys
    | some p =>
      match p.down with
      | [] => .ok sys
      | argv :: rest => do
        let p' ← { p with down := rest }.execBy proc (masterClient argv)
        .ok { sys with peers := sys.peers.set i p' }

def System.runBy (proc : Proc) (sys : System) (events : List Event) : Except Fault System :=
  events.foldlM (System.stepBy proc) sys

theorem System.step_eq_stepBy : System.step = System.stepBy controlAlg := by
  funext sys e
  cases e <;> rfl

theorem System.run_eq_runBy : System.run = System.runBy controlAlg := by
  funext sys events
  rw [System.run, System.runBy, System.step_eq_stepBy]

variable {proc : Proc} {o : Outcome} {i : Nat}

section

variable {n n' : Node} {c : Client} {dests : List Dest}

theorem call_eq_ok : call proc n c = .ok (n', o, dests) ↔
    proc n c = .ok (n', o) ∧ dests = propagate n' c o.flagUfs := by
  rw [call, bind_eq_ok]
  constructor
  · rintro ⟨⟨n1, o1⟩, hproc, heq⟩
    simp only [Except.ok.injEq, Prod.mk.injEq] at heq
    obtain ⟨rfl, rfl, rfl⟩ := heq
    exact ⟨hproc, rfl⟩
  rintro ⟨hproc, rfl⟩
  exact ⟨(n', o), hproc, rfl⟩

theorem propagate_false : propagate n c false = [] := rfl

theorem master_not_mem_propagate : Dest.master ∉ propagate n (masterClient argv) flag := by
  have hslaves : Dest.master ∉ replicationFeedSlaves n := by
    rw [replicationFeedSlaves]
    split
    · exact not_mem_nil
    · simp
  rw [propagate]
  split
  · exact not_mem_nil
  split
  · exact not_mem_nil
  · exact hslaves

end

section

variable {sys : System} {p : Peer} {argv : List Sds} {rest : List (List Sds)} {n : Node}

section

variable (hp : sys.peers[i]? = some p)
include hp

theorem System.stepBy_user (hproc : proc p.node (userClient argv) = .ok (n, o)) :
    sys.stepBy proc (.user i argv) = .ok { sys with peers := sys.peers.set i { p with
        node := n
        up := if .master ∈ propagate n (userClient argv) o.flagUfs then p.up ++ [o.argv]
          else p.up } } := by
  simp [System.stepBy, hp, Peer.execBy, call_eq_ok.mpr ⟨hproc, rfl⟩]

theorem System.stepBy_toServer (hup : p.up = argv :: rest)
    (hproc : proc sys.server (slaveClient i p.node.port argv) = .ok (n, o)) :
    sys.stepBy proc (.toServer i) = .ok
      ⟨n, feedPeers (propagate n (slaveClient i p.node.port argv) o.flagUfs) o.argv
        (sys.peers.set i { p with up := rest })⟩ := by
  simp [System.stepBy, hp, hup, call_eq_ok.mpr ⟨hproc, rfl⟩]

theorem System.stepBy_toClient (hdown : p.down = argv :: rest)
    (hproc : proc p.node (masterClient argv) = .ok (n, o)) :
    sys.stepBy proc (.toClient i) = .ok
      { sys with peers := sys.peers.set i { p with node := n, down := rest } } := by
  simp [System.stepBy, hp, hdown, Peer.execBy, call_eq_ok.mpr ⟨hproc, rfl⟩,
    if_neg master_not_mem_propagate]

end

/-- What a step does: nothing, if the client is not known or no message is on the way, or one of the
three commands. -/
inductive System.StepBy (proc : Proc) (sys : System) : Event → System → Prop where
  | idle (e : Event) : StepBy proc sys e sys
  | user {i : Nat} {p : Peer} {argv : List Sds} {n : Node} {o : Outcome}
      (hp : sys.peers[i]? = some p) (hproc : proc p.node (userClient argv) = .ok (n, o)) :
      StepBy proc sys (.user i argv) { sys with
        peers := sys.peers.set i { p with
          node := n
          up := if .master ∈ propagate n (userClient argv) o.flagUfs then p.up ++ [o.argv]
            else p.up } }
  | toServer {i : Nat} {p : Peer} {argv : List Sds} {rest : List (List Sds)} {n : Node} {o : Outcome}
      (hp : sys.peers[i]? = some p) (hup : p.up = argv :: rest)
      (hproc : proc sys.server (slaveClient i p.node.port argv) = .ok (n, o)) :
      StepBy proc sys (.toServer i)
        ⟨n, feedPeers (propagate n (slaveClient i p.node.port argv) o.flagUfs) o.argv
          (sys.peers.set i { p with up := rest })⟩
  | toClient {i : Nat} {p : Peer} {argv : List Sds} {rest : List (List Sds)} {n : Node} {o : Outcome}
      (hp : sys.peers[i]? = some p) (hdown : p.down = argv :: rest)
      (hproc : proc p.node (masterClient argv) = .ok (n, o)) :
      StepBy proc sys (.toClient i) { sys with
        peers := sys.peers.set i { p with node := n, down := rest } }

theorem System.StepBy.of_ok (hs : sys.stepBy proc e = .ok sys') : StepBy proc sys e sys' := by
  cases e with
  | user i argv =>
    rw [System.stepBy] at hs
    split at hs
    · cases hs
      exact .idle _
    next p hp =>
    simp only [Peer.execBy, bind_eq_ok, Except.ok.injEq] at hs
    obtain ⟨p', ⟨⟨n, o, dests⟩, hcall, rfl⟩, rfl⟩ := hs
    obtain ⟨hproc, rfl⟩ := call_eq_ok.mp hcall
    exact .user hp hproc
  | toServer i =>
    rw [System.stepBy] at hs
    split at hs
    · cases hs
      exact .idle _
    next p hp =>
    split at hs
    · cases hs
      exact .idle _
    next argv rest hup =>
    simp only [bind_eq_ok, Except.ok.injEq] at hs
    obtain ⟨⟨n, o, dests⟩, hcall, rfl⟩ := hs
    obtain ⟨hproc, rfl⟩ := call_eq_ok.mp hcall
    exact .toServer hp hup hproc
  | toClient i =>
    rw [System.stepBy] at hs
    split at hs
    · cases hs
      exact .idle _
    next p hp =>
    split at hs
    · cases hs
      exact .idle _
    next argv rest hdown =>
    simp only [Peer.execBy, bind_eq_ok, Except.ok.injEq] at hs
    obtain ⟨p', ⟨⟨n, o, dests⟩, hcall, rfl⟩, rfl⟩ := hs
    obtain ⟨hproc, rfl⟩ := call_eq_ok.mp hcall
    rw [if_neg master_not_mem_propagate]
    exact .toClient hp hdown hproc

end

/-! ## The rule -/

/-- All clients have `P`, the server has `Q`, and the commands on the way to and from the server
have `U` and `D`. -/
structure Everywhere (P Q : Node → Prop) (U D : List Sds → Prop) (sys : System) : Prop where
  server : Q sys.server
  node : ∀ p ∈ sys.peers, P p.node
  up : ∀ p ∈ sys.peers, ∀ argv ∈ p.up, U argv
  down : ∀ p ∈ sys.peers, ∀ argv ∈ p.down, D argv

/-- What `proc` has to keep, for commands of users with `C`. -/
structure KeptBy (proc : Proc) (P Q : Node → Prop) (U D C : List Sds → Prop) : Prop where
  user : ∀ {n argv n' o}, P n → C argv → proc n (userClient argv) = .ok (n', o) →
    P n' ∧ (o.flagUfs = true → U o.argv)
  toServer : ∀ {n i port argv n' o}, Q n → U argv → proc n (slaveClient i port argv) = .ok (n', o) →
    Q n' ∧ (o.flagUfs = true → D o.argv)
  toClient : ∀ {n argv n' o}, P n → D argv → proc n (masterClient argv) = .ok (n', o) → P n'

/-- The commands of users have `C`. -/
def UserHas (C : List Sds → Prop) : Event → Prop
  | .user _ argv => C argv
  | .toServer _ => True
  | .toClient _ => True

variable {P Q : Node → Prop} {U D C : List Sds → Prop} {sys sys' : System} {p p' : Peer}

theorem Everywhere.set (h : Everywhere P Q U D sys) (hnode : P p'.node)
    (hup : ∀ argv ∈ p'.up, U argv) (hdown : ∀ argv ∈ p'.down, D argv) :
    Everywhere P Q U D { sys with peers := sys.peers.set i p' } := by
  have hmem : ∀ q ∈ sys.peers.set i p', q ∈ sys.peers ∨ q = p' := fun q hq =>
    mem_or_eq_of_mem_set hq
  refine ⟨h.server, fun q hq => ?_, fun q hq => ?_, fun q hq => ?_⟩
  · rcases hmem q hq with hq | rfl
    · exact h.node q hq
    · exact hnode
  · rcases hmem q hq with hq | rfl
    · exact h.up q hq
    · exact hup
  rcases hmem q hq with hq | rfl
  · exact h.down q hq
  · exact hdown

theorem Everywhere.feed (h : Everywhere P Q U D sys) (hn : Q n) (hargv : dests ≠ [] → D argv) :
    Everywhere P Q U D ⟨n, feedPeers dests argv sys.peers⟩ := by
  have hmem : ∀ q ∈ feedPeers dests argv sys.peers, ∃ q0 ∈ sys.peers, q.node = q0.node ∧
      q.up = q0.up ∧ ∀ m ∈ q.down, D m := by
    intro q hq
    obtain ⟨j, hj, rfl⟩ := mem_mapIdx.mp hq
    have hq0 : sys.peers[j] ∈ sys.peers := getElem_mem hj
    refine ⟨sys.peers[j], hq0, ?_⟩
    split
    · next hsent =>
      refine ⟨rfl, rfl, fun m hm => ?_⟩
      rcases mem_append.mp hm with hm | hm
      · exact h.down _ hq0 m hm
      rw [mem_singleton.mp hm]
      exact hargv (ne_nil_of_mem hsent)
    · exact ⟨rfl, rfl, h.down _ hq0⟩
  refine ⟨hn, fun q hq => ?_, fun q hq => ?_, fun q hq => ?_⟩
  · obtain ⟨q0, hq0, hnode, -, -⟩ := hmem q hq
    rw [hnode]
    exact h.node q0 hq0
  · obtain ⟨q0, hq0, -, hup, -⟩ := hmem q hq
    rw [hup]
    exact h.up q0 hq0
  obtain ⟨-, -, -, -, hdown⟩ := hmem q hq
  exact hdown

theorem Everywhere.step (hk : KeptBy proc P Q U D C) (h : Everywhere P Q U D sys) {e}
    (he : UserHas C e) (hs : sys.stepBy proc e = .ok sys') : Everywhere P Q U D sys' := by
  have hflag : ∀ {n : Node} {c : Client} {flag : Bool}, propagate n c flag ≠ [] → flag = true := by
    intro n c flag hne
    by_contra hf
    rw [Bool.not_eq_true] at hf
    rw [hf] at hne
    exact hne propagate_false
  cases System.StepBy.of_ok hs with
  | idle => exact h
  | @user i p argv n o hp hproc =>
    have hmem := mem_of_getElem? hp
    obtain ⟨hnode, hsent⟩ := hk.user (h.node p hmem) he hproc
    refine h.set hnode ?_ (h.down p hmem)
    simp only
    split
    · next hm =>
      intro m hmem'
      rcases mem_append.mp hmem' with hmem' | hmem'
      · exact h.up p hmem m hmem'
      rw [mem_singleton.mp hmem']
      exact hsent (hflag (ne_nil_of_mem hm))
    · exact h.up p hmem
  | @toServer i p argv rest n o hp hup hproc =>
    have hmem := mem_of_getElem? hp
    have hups : ∀ m ∈ argv :: rest, U m := hup ▸ h.up p hmem
    obtain ⟨hnode, hsent⟩ := hk.toServer h.server (hups argv (by simp)) hproc
    have hset : Everywhere P Q U D { sys with peers := sys.peers.set i { p with up := rest } } :=
      h.set (h.node p hmem) (fun m hm => hups m (by simp [hm])) (h.down p hmem)
    exact hset.feed hnode fun hne => hsent (hflag hne)
  | @toClient i p argv rest n o hp hdown hproc =>
    have hmem := mem_of_getElem? hp
    have hdowns : ∀ m ∈ argv :: rest, D m := hdown ▸ h.down p hmem
    exact h.set (hk.toClient (h.node p hmem) (hdowns argv (by simp)) hproc) (h.up p hmem)
      fun m hm => hdowns m (by simp [hm])

theorem Everywhere.run (hk : KeptBy proc P Q U D C) (h : Everywhere P Q U D sys)
    (he : ∀ e ∈ events, UserHas C e)
    (hs : sys.runBy proc events = .ok sys') : Everywhere P Q U D sys' :=
  foldlM_ok h (fun _ e hmem _ h hs => h.step hk (he e hmem) hs) hs

end UfsRedis
