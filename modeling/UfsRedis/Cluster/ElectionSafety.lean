import Mathlib.Data.List.Pairwise
import UfsRedis.Lib.Quorum
import UfsRedis.Cluster.Election

/-!
# Safety of elections

A master must not vote for two slaves in one epoch, so that at most one slave wins the election of
an epoch. Two slips of the source break this. `clusterSendFailoverAuthIfNeeded` does not schedule a
save of `lastVoteEpoch`, so a master that is restarted has forgotten its vote. And
`clusterProcessPacket` counts a vote whose epoch is at least `failover_auth_epoch`, which is the
epoch of the last election until the next one starts, although the count was reset when that one was
scheduled: a late vote of the last election is counted in the next.

* `Event.Meets`: neither happens at a step.
* `Inv`: the votes on the way to a slave and those it has counted were given to it in this epoch.
* `election_safe`: in the runs whose events meet the condition, both statements hold.
-/

namespace UfsRedis.Cluster

open List

variable {T : Topology} {cfg : Config}

/-! ## One call -/

/-- The votes and the election stay as they are. -/
structure Node.Keeps (n n' : Node) : Prop where
  vote : n'.lastVoteEpoch = n.lastVoteEpoch
  epoch : n.currentEpoch ≤ n'.currentEpoch
  saved : n'.saved = n.saved
  promoted : n'.promoted = n.promoted
  count : n'.failoverAuthCount = n.failoverAuthCount
  sent : n'.failoverAuthSent = n.failoverAuthSent
  authEpoch : n'.failoverAuthEpoch = n.failoverAuthEpoch
  time : n'.failoverAuthTime = n.failoverAuthTime ∨ 0 < n.failoverAuthTime ∧ 0 < n'.failoverAuthTime

/-- What `clusterHandleSlaveFailover` can do at the node `i`. -/
inductive Handled (T : Topology) (i : Nat) (n : Node) : Outcome → Prop where
  | idle {n' : Node} (keeps : n.Keeps n') : Handled T i n ⟨n', [], false⟩
  | scheduled {n' : Node} {ps : List Packet} (vote : n'.lastVoteEpoch = n.lastVoteEpoch)
    (epoch : n'.currentEpoch = n.currentEpoch) (saved : n'.saved = n.saved)
    (time : 0 < n'.failoverAuthTime) (count : n'.failoverAuthCount = 0)
    (sent : n'.failoverAuthSent = false) (packets : ∀ p ∈ ps, p.type ≠ .failoverAuthAck) :
    Handled T i n ⟨n', ps, false⟩
  | started {n' : Node} {ps : List Packet} (slave : i ∉ T.voters)
    (scheduled : 0 < n.failoverAuthTime) (promoted : n.promoted = false)
    (unsent : n.failoverAuthSent = false) (time : 0 < n'.failoverAuthTime)
    (count : n'.failoverAuthCount = n.failoverAuthCount)
    (packets : ∀ p ∈ ps, p.type ≠ .failoverAuthAck) : Handled T i n ⟨n', ps, false⟩
  | won {n' : Node} {ps : List Packet} (slave : i ∉ T.voters)
    (scheduled : 0 < n.failoverAuthTime) (sent : n.failoverAuthSent = true)
    (unpromoted : n.promoted = false) (quorum : T.neededQuorum ≤ n.failoverAuthCount)
    (authEpoch : n'.failoverAuthEpoch = n.failoverAuthEpoch) (promoted : n'.promoted = true)
    (time : 0 ≤ n'.failoverAuthTime) (packets : ∀ p ∈ ps, p.type ≠ .failoverAuthAck) :
    Handled T i n ⟨n', ps, true⟩

namespace Node

variable {i m : Nat} {n : Node} {p : Packet}

theorem type_of_mem_broadcast {type : MsgType}
    (h : p ∈ n.broadcast T i type force) : p.type = type := by
  obtain ⟨j, -, rfl⟩ := mem_map.mp h
  rfl

theorem type_of_mem_broadcastLocalSlaves (h : p ∈ n.broadcastLocalSlaves T i) :
    p.type = .other := by
  obtain ⟨j, -, rfl⟩ := mem_map.mp h
  rfl

theorem notMem_voters_of_slaveof (h : n.slaveof T i = some m) : i ∉ T.voters := by
  intro hi
  have hnone := (mem_filter.mp hi).2
  simp only [decide_eq_true_eq] at hnone
  unfold slaveof at h
  split at h
  · cases h
  rw [hnone.1] at h
  cases h

theorem promoted_of_slaveof (h : n.slaveof T i = some m) : n.promoted = false := by
  unfold slaveof at h
  split at h
  · cases h
  · exact Bool.eq_false_iff.mpr ‹_›

end Node

theorem authRetryTime_pos (cfg : Config) : 0 < cfg.authRetryTime := by
  unfold Config.authRetryTime Config.authTimeout
  split <;> omega

theorem scheduleElection_handled (v : FailoverView cfg) (i : Nat) (n : Node) :
    Handled T i n (scheduleElection T cfg v i { n with handleFailover := false }) := by
  have hlate := v.clock.late
  have hpos := authRetryTime_pos cfg
  unfold scheduleElection
  apply Handled.scheduled
  · split <;> rfl
  · split <;> rfl
  · split <;> rfl
  · split
    · show 0 < v.clock.now
      omega
    show 0 < v.clock.now + 500 + v.random + v.rank * 1000
    omega
  · split <;> rfl
  · split <;> rfl
  intro p hp
  rw [Node.type_of_mem_broadcastLocalSlaves hp]
  decide

theorem updateRank_spec (v : FailoverView cfg) (n : Node) (h : 0 < n.failoverAuthTime) :
    ∃ time rank, 0 < time ∧
      updateRank cfg v n = { n with failoverAuthTime := time, failoverAuthRank := rank } := by
  unfold updateRank
  split
  · next hrank =>
    refine ⟨_, _, ?_, rfl⟩
    omega
  · exact ⟨n.failoverAuthTime, n.failoverAuthRank, h, rfl⟩

theorem clusterHandleSlaveFailover_handled (v : FailoverView cfg) (i : Nat) (n : Node) :
    Handled T i n (clusterHandleSlaveFailover T cfg v i n) := by
  have hidle : Handled T i n ⟨{ n with handleFailover := false }, [], false⟩ :=
    .idle ⟨rfl, Nat.le_refl _, rfl, rfl, rfl, rfl, rfl, .inl rfl⟩
  unfold clusterHandleSlaveFailover
  dsimp only
  split
  · exact hidle
  next master hmaster =>
  replace hmaster : n.slaveof T i = some master := hmaster
  split
  · exact hidle
  split
  · exact hidle
  split
  · exact scheduleElection_handled v i n
  next hage =>
  -- The clock is past the retry time, so an election was scheduled.
  have htime : 0 < n.failoverAuthTime := by
    have hlate := v.clock.late
    omega
  obtain ⟨time, rank, hpos, hrank⟩ := updateRank_spec v { n with handleFailover := false } htime
  have hidle' : Handled T i n ⟨updateRank cfg v { n with handleFailover := false }, [], false⟩ := by
    rw [hrank]
    exact .idle ⟨rfl, Nat.le_refl _, rfl, rfl, rfl, rfl, rfl, .inr ⟨htime, hpos⟩⟩
  split
  · exact hidle'
  split
  · exact hidle'
  rw [hrank]
  split
  · next hsent =>
    refine .started (Node.notMem_voters_of_slaveof hmaster) htime
      (Node.promoted_of_slaveof hmaster) hsent hpos rfl ?_
    intro p hp
    rw [Node.type_of_mem_broadcast hp]
    decide
  split
  · next hsent hcount =>
    refine .won (Node.notMem_voters_of_slaveof hmaster) htime ?_
      (Node.promoted_of_slaveof hmaster) hcount ?_ rfl ?_ ?_
    · exact eq_true_of_ne_false hsent
    · show (if _ then _ else _ : Node).failoverAuthEpoch = _
      split <;> rfl
    · show 0 ≤ (if _ then _ else _ : Node).failoverAuthTime
      split <;> exact Int.le_of_lt hpos
    intro p hp
    rw [Node.type_of_mem_broadcast hp]
    decide
  rw [← hrank]
  exact hidle'

/-- What `clusterProcessPacket` can do at the node `i`. -/
inductive Processed (T : Topology) (i : Nat) (n : Node) (p : Packet) : Node × Option Packet → Prop where
  | ignored {n' : Node} (keeps : n.Keeps n') : Processed T i n p (n', none)
  | counted {n' : Node} (type : p.type = .failoverAuthAck)
    (epoch : n.failoverAuthEpoch ≤ p.currentEpoch) (keeps : n.Keeps n') :
    Processed T i n p ({ n' with
      failoverAuthCount := n'.failoverAuthCount + 1, handleFailover := true }, none)
  | voted {n' : Node} {votedTime : Nat → Int} {ack : Option Packet} (voter : i ∈ T.voters)
    (type : p.type = .failoverAuthRequest) (keeps : n.Keeps n')
    (fresh : n'.lastVoteEpoch ≠ n'.currentEpoch)
    (packet : ∀ q ∈ ack, q.type = .failoverAuthAck ∧ q.currentEpoch = n'.currentEpoch) :
    Processed T i n p
      ({ n' with lastVoteEpoch := n'.currentEpoch, votedTime := votedTime }, ack)

theorem updateEpochs_keeps (n : Node) (p : Packet) : n.Keeps (updateEpochs n p) := by
  unfold updateEpochs
  dsimp only
  split <;> split <;> refine ⟨rfl, ?_, rfl, rfl, rfl, rfl, rfl, .inl rfl⟩ <;>
    first | exact Nat.le_refl _ | exact Nat.le_of_lt ‹_›

theorem clusterProcessPacket_processed (v : PacketView cfg) (i : Nat) (n : Node) (p : Packet) :
    Processed T i n p (clusterProcessPacket T cfg v i n p) := by
  have hkeeps := updateEpochs_keeps n p
  unfold clusterProcessPacket
  dsimp only
  split
  · next htype =>
    unfold clusterSendFailoverAuthIfNeeded
    split
    · exact .ignored hkeeps
    next hvoter =>
    split
    · exact .ignored hkeeps
    split
    · exact .ignored hkeeps
    next hfresh =>
    split
    · exact .ignored hkeeps
    split
    · exact .ignored hkeeps
    split
    · exact .ignored hkeeps
    split
    · exact .ignored hkeeps
    refine .voted (not_not.mp hvoter) htype hkeeps hfresh ?_
    intro q hq
    split at hq
    · obtain rfl := Option.mem_some.mp hq
      exact ⟨rfl, rfl⟩
    · cases hq
  · next htype =>
    split
    · next hcond => exact .counted htype (hkeeps.authEpoch ▸ hcond.2) hkeeps
    · exact .ignored hkeeps
  · exact .ignored hkeeps

/-! ## The invariant -/

namespace System

/-- The votes of the epoch `e` that are on the way to the node `i`. -/
def acks (s : System) (i e : Nat) : Nat :=
  s.net.countP fun p => p.type = .failoverAuthAck ∧ p.dest = i ∧ p.currentEpoch = e

/-- The votes that were given to the node `i` in the epoch `e`. -/
def votes (s : System) (i e : Nat) : Nat := s.grants.countP fun g => g.2.1 = i ∧ g.2.2 = e

theorem acks_append {s : System} {ps : List Packet} (h : ∀ p ∈ ps, p.type ≠ .failoverAuthAck)
    (i e : Nat) : acks { s with net := s.net ++ ps } i e = s.acks i e := by
  have hzero : ps.countP
      (fun p => p.type = .failoverAuthAck ∧ p.dest = i ∧ p.currentEpoch = e) = 0 := by
    refine countP_eq_zero.mpr fun p hp => ?_
    simp [h p hp]
  rw [acks, countP_append, hzero]
  rfl

end System

/-- The node `i`, with the votes on the way to it and those that were given to it in each epoch. -/
structure NodeInv (T : Topology) (acks votes : Nat → Nat) (i : Nat) (n : Node) : Prop where
  voted : i ∈ T.voters → n.lastVoteEpoch ≤ n.currentEpoch
  saved : i ∈ T.voters → n.saved.lastVoteEpoch ≤ n.saved.currentEpoch
  time : 0 ≤ n.failoverAuthTime
  unsent : n.promoted = false → 0 < n.failoverAuthTime → n.failoverAuthSent = false →
    n.failoverAuthCount = 0
  counted : n.promoted = false → 0 < n.failoverAuthTime → n.failoverAuthSent = true →
    n.failoverAuthCount + acks n.failoverAuthEpoch ≤ votes n.failoverAuthEpoch

structure Inv (T : Topology) (s : System) : Prop where
  node : ∀ i, NodeInv T (s.acks i) (s.votes i) i (s.node i)
  granted : ∀ g ∈ s.grants, g.1 ∈ T.voters ∧ g.2.2 ≤ (s.node g.1).lastVoteEpoch
  once : s.grants.Pairwise fun g g' => ¬ (g.1 = g'.1 ∧ g.2.2 = g'.2.2)
  acks : ∀ i e, s.acks i e ≤ s.votes i e
  wins : ∀ w ∈ s.wins, T.neededQuorum ≤ s.votes w.1 w.2

namespace NodeInv

variable {acks votes acks' votes' : Nat → Nat} {i : Nat} {n n' : Node}

variable (h : NodeInv T acks votes i n)
include h

theorem mono
    (hmono : ∀ e, acks' e + votes e ≤ acks e + votes' e) : NodeInv T acks' votes' i n where
  voted := h.voted
  saved := h.saved
  time := h.time
  unsent := h.unsent
  counted hp ht hs := by
    have h1 := h.counted hp ht hs
    have h2 := hmono n.failoverAuthEpoch
    omega

theorem keeps (hn : n.Keeps n') : NodeInv T acks votes i n' where
  voted hi := by
    rw [hn.vote]
    exact Nat.le_trans (h.voted hi) hn.epoch
  saved hi := by
    rw [hn.saved]
    exact h.saved hi
  time := by
    have h1 := h.time
    have h2 := hn.time
    omega
  unsent hp ht hs := by
    have h2 := hn.time
    rw [hn.count]
    exact h.unsent (hn.promoted ▸ hp) (by omega) (hn.sent ▸ hs)
  counted hp ht hs := by
    have h2 := hn.time
    rw [hn.count, hn.authEpoch]
    exact h.counted (hn.promoted ▸ hp) (by omega) (hn.sent ▸ hs)

theorem clusterSaveConfig :
    NodeInv T acks votes i n.clusterSaveConfig where
  voted := h.voted
  saved := h.voted
  time := h.time
  unsent := h.unsent
  counted := h.counted

/-- A node starts with an epoch that is not older than the last vote in its file. -/
theorem restart (sent : Bool) : NodeInv T acks votes i (n.restart T sent) := by
  have hnew : (n.restart T sent).failoverAuthTime = 0 := by
    unfold Node.restart
    dsimp only
    split <;> rfl
  have hsaved : (n.restart T sent).saved = n.saved := by
    unfold Node.restart
    dsimp only
    split <;> rfl
  have hvoted : (n.restart T sent).lastVoteEpoch = n.saved.lastVoteEpoch ∧
      n.saved.currentEpoch ≤ (n.restart T sent).currentEpoch := by
    unfold Node.restart
    dsimp only
    split
    · next hmax => exact ⟨rfl, Nat.le_of_lt hmax⟩
    · exact ⟨rfl, Nat.le_refl _⟩
  constructor
  · intro hi
    rw [hvoted.1]
    exact Nat.le_trans (h.saved hi) hvoted.2
  · intro hi
    rw [hsaved]
    exact h.saved hi
  · exact Int.le_of_eq hnew.symm
  · intro _ ht
    omega
  intro _ ht
  omega

end NodeInv

/-! ## Steps of the system -/

/-- A vote arrives while the election it was given for is running, or when it does no harm: its epoch
is older, no election has been scheduled since the node was started, or the node has been
promoted. -/
def Node.Awaits (n : Node) (p : Packet) : Prop :=
  p.currentEpoch < n.failoverAuthEpoch ∨
  n.failoverAuthSent = true ∧ p.currentEpoch = n.failoverAuthEpoch ∨
  n.failoverAuthTime = 0 ∨ n.promoted = true

instance (n : Node) (p : Packet) : Decidable (n.Awaits p) := inferInstanceAs (Decidable (_ ∨ _))

/-- No step goes wrong: a master with an unsaved vote is not restarted, and a slave counts only the
votes of the election that is running. -/
def Event.Meets (T : Topology) (s : System) : Event cfg → Prop
  | .restart i _ => i ∈ T.voters → (s.node i).saved.lastVoteEpoch = (s.node i).lastVoteEpoch
  | .deliver k _ => ∀ p ∈ s.net[k]?, p.type = .failoverAuthAck → (s.node p.dest).Awaits p
  | _ => True

instance (T : Topology) (s : System) : ∀ e : Event cfg, Decidable (e.Meets T s)
  | .restart i _ => inferInstanceAs
      (Decidable (i ∈ T.voters → (s.node i).saved.lastVoteEpoch = (s.node i).lastVoteEpoch))
  | .deliver k _ => inferInstanceAs
      (Decidable (∀ p ∈ s.net[k]?, p.type = .failoverAuthAck → (s.node p.dest).Awaits p))
  | .lose _ => .isTrue trivial
  | .ping _ _ => .isTrue trivial
  | .cron _ _ => .isTrue trivial
  | .beforeSleep _ _ => .isTrue trivial
  | .scheduleSave _ => .isTrue trivial

namespace Inv

variable {s : System}

section

variable (h : Inv T s)
include h

variable {i : Nat} {n : Node}

theorem setNode (hnet : ∀ j e, System.acks { s with net := net } j e = s.acks j e)
    (hn : NodeInv T (s.acks i) (s.votes i) i n)
    (hvote : i ∈ T.voters → (s.node i).lastVoteEpoch ≤ n.lastVoteEpoch) :
    Inv T (System.setNode { s with net := net } i n) where
  node j := by
    show NodeInv T (System.acks { s with net := net } j) (s.votes j) j (if j = i then n else s.node j)
    have hacks : System.acks { s with net := net } j = s.acks j := funext (hnet j)
    rw [hacks]
    split
    · next hj =>
      subst hj
      exact hn
    · exact h.node j
  granted g hg := by
    obtain ⟨hvoter, hle⟩ := h.granted g hg
    refine ⟨hvoter, ?_⟩
    show g.2.2 ≤ (if g.1 = i then n else s.node g.1).lastVoteEpoch
    split
    · next hi =>
      subst hi
      exact Nat.le_trans hle (hvote hvoter)
    · exact hle
  once := h.once
  acks j e := by
    show System.acks { s with net := net } j e ≤ s.votes j e
    rw [hnet]
    exact h.acks j e
  wins := h.wins

theorem eraseIdx (k : Nat) : Inv T { s with net := s.net.eraseIdx k } := by
  have hle : ∀ j e, System.acks { s with net := s.net.eraseIdx k } j e ≤ s.acks j e := fun j e =>
    (eraseIdx_sublist s.net k).countP_le
  exact {
    node := fun i => (h.node i).mono fun e => Nat.add_le_add_right (hle i e) _
    granted := h.granted
    once := h.once
    acks := fun j e => Nat.le_trans (hle j e) (h.acks j e)
    wins := h.wins }

theorem sendAck (hi : i ∈ T.voters)
    (htype : q.type = .failoverAuthAck) (hepoch : q.currentEpoch = (s.node i).lastVoteEpoch)
    (hnew : ∀ g ∈ s.grants, g.1 = i → g.2.2 < q.currentEpoch) : Inv T (s.grant i (some q)) := by
  have hsum : ∀ j e, (s.grant i (some q)).acks j e + s.votes j e =
      s.acks j e + (s.grant i (some q)).votes j e := by
    intro j e
    simp only [System.acks, System.votes, System.grant, countP_append, countP_cons,
      countP_nil, htype, true_and]
    omega
  have hmore : ∀ j e, s.votes j e ≤ (s.grant i (some q)).votes j e := by
    intro j e
    simp only [System.votes, System.grant, countP_append]
    omega
  constructor
  · intro j
    exact (h.node j).mono fun e => Nat.le_of_eq (hsum j e)
  · intro g hg
    rcases mem_append.mp hg with hg | hg
    · exact h.granted g hg
    obtain rfl := mem_singleton.mp hg
    exact ⟨hi, Nat.le_of_eq hepoch⟩
  · refine pairwise_append.mpr ⟨h.once, pairwise_singleton _ _, ?_⟩
    intro g hg g' hg' ⟨hvoter, hsame⟩
    obtain rfl := mem_singleton.mp hg'
    have hlt := hnew g hg hvoter
    simp only at hsame
    omega
  · intro j e
    have h1 := hsum j e
    have h2 := h.acks j e
    omega
  intro w hw
  exact Nat.le_trans (h.wins w hw) (hmore w.1 w.2)

theorem vote {ack}
    (hi : i ∈ T.voters) (hn : (s.node i).Keeps n) (hfresh : n.lastVoteEpoch ≠ n.currentEpoch)
    (hack : ∀ q ∈ ack, q.type = .failoverAuthAck ∧ q.currentEpoch = n.currentEpoch) :
    Inv T ((s.setNode i
      { n with lastVoteEpoch := n.currentEpoch, votedTime := votedTime }).grant i ack) := by
  have hvoted := (h.node i).keeps hn
  have hlt : (s.node i).lastVoteEpoch < n.currentEpoch := by
    have hle := hvoted.voted hi
    have heq := hn.vote
    omega
  have hset : Inv T (s.setNode i { n with
      lastVoteEpoch := n.currentEpoch, votedTime := votedTime }) := by
    refine h.setNode (fun _ _ => rfl) ?_ fun _ => Nat.le_of_lt hlt
    exact ⟨fun _ => Nat.le_refl _, hvoted.saved, hvoted.time, hvoted.unsent, hvoted.counted⟩
  obtain _ | q := ack
  · exact hset
  obtain ⟨htype, hepoch⟩ := hack q rfl
  refine hset.sendAck hi htype ?_ ?_
  · show q.currentEpoch = (if i = i then _ else _ : Node).lastVoteEpoch
    rw [if_pos rfl]
    exact hepoch
  intro g hg hvoter
  have hle := (h.granted g hg).2
  rw [hvoter] at hle
  omega

theorem count (hp : s.net[k]? = some p)
    (htype : p.type = .failoverAuthAck) (hn : (s.node p.dest).Keeps n)
    (hmeets : (s.node p.dest).failoverAuthSent = true ∧
        p.currentEpoch = (s.node p.dest).failoverAuthEpoch ∨
      (s.node p.dest).failoverAuthTime = 0 ∨ (s.node p.dest).promoted = true) :
    Inv T (System.setNode { s with net := s.net.eraseIdx k } p.dest { n with
      failoverAuthCount := n.failoverAuthCount + 1, handleFailover := true }) := by
  have hkept := (h.node p.dest).keeps hn
  have hone : s.acks p.dest p.currentEpoch =
      System.acks { s with net := s.net.eraseIdx k } p.dest p.currentEpoch + 1 := by
    rw [System.acks, Lib.countP_eraseIdx hp, if_pos (by simp [htype])]
    rfl
  -- The counted votes are bounded only while an election is running at a slave.
  have hrun : n.promoted = false → 0 < n.failoverAuthTime →
      n.failoverAuthSent = true ∧ p.currentEpoch = n.failoverAuthEpoch := by
    intro hpromoted htime
    have htime' := hn.time
    rcases hmeets with hrun | hstart | hmaster
    · exact ⟨hn.sent.trans hrun.1, hrun.2.trans hn.authEpoch.symm⟩
    · omega
    rw [← hn.promoted, hpromoted] at hmaster
    cases hmaster
  refine Inv.setNode (h.eraseIdx k) (fun _ _ => rfl) ?_ fun _ => Nat.le_of_eq hn.vote.symm
  refine ⟨hkept.voted, hkept.saved, hkept.time, ?_, ?_⟩
  · intro hpromoted htime (hsent : n.failoverAuthSent = false)
    rw [(hrun hpromoted htime).1] at hsent
    cases hsent
  intro hpromoted htime hsent
  have hcounted := hkept.counted hpromoted htime hsent
  show n.failoverAuthCount + 1 +
      System.acks { s with net := s.net.eraseIdx k } p.dest n.failoverAuthEpoch ≤
    s.votes p.dest n.failoverAuthEpoch
  rw [← (hrun hpromoted htime).2] at hcounted ⊢
  omega

/-- A call of `clusterHandleSlaveFailover`. A quorum was counted from the votes of the epoch. -/
theorem commit (hr : Handled T i (s.node i) r) : Inv T (s.commit i r) := by
  cases hr with
  | idle hkeeps =>
    refine Inv.setNode h (System.acks_append (by simp)) ((h.node i).keeps hkeeps) ?_
    intro _
    exact Nat.le_of_eq hkeeps.vote.symm
  | @scheduled n' ps hvote hepoch hsaved htime hcount hsent hps =>
    refine Inv.setNode h (System.acks_append hps) ?_ fun _ => Nat.le_of_eq hvote.symm
    refine ⟨?_, ?_, Int.le_of_lt htime, fun _ _ _ => hcount, ?_⟩
    · rw [hvote, hepoch]
      exact (h.node i).voted
    · rw [hsaved]
      exact (h.node i).saved
    intro _ _ h'
    rw [hsent] at h'
    cases h'
  | @started n' ps hslave hscheduled hpromoted hunsent htime hcount hps =>
    refine Inv.setNode h (System.acks_append hps) ?_ fun hi => absurd hi hslave
    have hzero := (h.node i).unsent hpromoted hscheduled hunsent
    refine ⟨fun hi => absurd hi hslave, fun hi => absurd hi hslave, Int.le_of_lt htime, ?_, ?_⟩
    · intro _ _ _
      rw [hcount, hzero]
    intro _ _ _
    rw [hcount, hzero, Nat.zero_add]
    exact h.acks i _
  | @won n' ps hslave hscheduled hsent hunpromoted hquorum hauth hpromoted htime hps =>
    have hset : Inv T (System.setNode { s with net := s.net ++ ps } i n') := by
      refine Inv.setNode h (System.acks_append hps) ?_ fun hi => absurd hi hslave
      refine ⟨fun hi => absurd hi hslave, fun hi => absurd hi hslave, htime, ?_, ?_⟩
      · intro h'
        rw [hpromoted] at h'
        cases h'
      intro h'
      rw [hpromoted] at h'
      cases h'
    refine ⟨hset.node, hset.granted, hset.once, hset.acks, ?_⟩
    intro w hw
    rcases mem_append.mp hw with hw | hw
    · exact h.wins w hw
    obtain rfl := mem_singleton.mp hw
    have hcounted := (h.node i).counted hunpromoted hscheduled hsent
    show T.neededQuorum ≤ s.votes i n'.failoverAuthEpoch
    rw [hauth]
    omega

theorem beforeSleep (v : FailoverView cfg) (i : Nat) :
    Inv T (s.commit i (clusterBeforeSleep T cfg v i (s.node i))) := by
  unfold clusterBeforeSleep
  dsimp only
  generalize hr : (if (s.node i).handleFailover then
    clusterHandleSlaveFailover T cfg v i (s.node i) else ⟨s.node i, [], false⟩ : Outcome) = r
  have hhandled : Handled T i (s.node i) r := by
    rw [← hr]
    split
    · exact clusterHandleSlaveFailover_handled v i _
    · exact .idle ⟨rfl, Nat.le_refl _, rfl, rfl, rfl, rfl, rfl, .inl rfl⟩
  generalize hn : { (if r.node.saveConfig then r.node.clusterSaveConfig else r.node) with
    handleFailover := false, saveConfig := false } = n
  have hcommit := h.commit hhandled
  have hself : (s.commit i r).node i = r.node := if_pos rfl
  have hnode : NodeInv T ((s.commit i r).acks i) ((s.commit i r).votes i) i n := by
    have hold := hcommit.node i
    rw [hself] at hold
    rw [← hn]
    split
    · exact hold.clusterSaveConfig.keeps ⟨rfl, Nat.le_refl _, rfl, rfl, rfl, rfl, rfl, .inl rfl⟩
    · exact hold.keeps ⟨rfl, Nat.le_refl _, rfl, rfl, rfl, rfl, rfl, .inl rfl⟩
  have hfields : n.lastVoteEpoch = r.node.lastVoteEpoch ∧
      n.failoverAuthEpoch = r.node.failoverAuthEpoch := by
    rw [← hn]
    split <;> exact ⟨rfl, rfl⟩
  have hset := hcommit.setNode (fun _ _ => rfl) hnode fun _ => Nat.le_of_eq (by rw [hself, hfields.1])
  have heq : s.commit i { r with node := n } =
      System.setNode { s.commit i r with net := (s.commit i r).net } i n := by
    unfold System.commit System.setNode
    rw [System.mk.injEq]
    refine ⟨?_, rfl, rfl, ?_⟩
    · funext j
      dsimp only
      split <;> rfl
    dsimp only
    rw [hfields.2]
  rw [heq]
  exact hset

theorem step {e : Event cfg} (he : e.Meets T s) : Inv T (s.step T e) := by
  cases e with
  | deliver k v =>
    unfold System.step
    dsimp only
    split
    · exact h
    next p hp =>
    generalize hr : clusterProcessPacket T cfg v p.dest (s.node p.dest) p = r
    have hprocessed : Processed T p.dest (s.node p.dest) p r := by
      rw [← hr]
      exact clusterProcessPacket_processed v _ _ _
    have herase := h.eraseIdx k
    cases hprocessed with
    | ignored hkeeps =>
      refine herase.setNode (fun _ _ => rfl) ((herase.node _).keeps hkeeps) ?_
      intro _
      exact Nat.le_of_eq hkeeps.vote.symm
    | counted htype hepoch hkeeps =>
      refine h.count hp htype hkeeps ?_
      rcases he p hp htype with hold | hrest
      · exact absurd hepoch (Nat.not_le_of_lt hold)
      · exact hrest
    | voted hvoter htype hkeeps hfresh hack =>
      exact herase.vote hvoter hkeeps hfresh hack
  | lose k => exact h.eraseIdx k
  | ping i j =>
    have hacks := @System.acks_append s [(s.node i).header T i .other false j] <| by
      intro p hp
      obtain rfl := mem_singleton.mp hp
      show MsgType.other ≠ .failoverAuthAck
      decide
    refine ⟨fun j' => (h.node j').mono fun e => ?_, h.granted, h.once, fun j' e => ?_, h.wins⟩
    · exact Nat.le_of_eq (congrArg (· + s.votes j' e) (hacks j' e))
    · exact Nat.le_trans (Nat.le_of_eq (hacks j' e)) (h.acks j' e)
  | cron i v => exact h.commit (clusterHandleSlaveFailover_handled v i _)
  | beforeSleep i v => exact h.beforeSleep v i
  | scheduleSave i =>
    refine h.setNode (fun _ _ => rfl) ?_ fun _ => Nat.le_refl _
    exact (h.node i).keeps ⟨rfl, Nat.le_refl _, rfl, rfl, rfl, rfl, rfl, .inl rfl⟩
  | restart i sent =>
    refine h.setNode (fun _ _ => rfl) ((h.node i).restart sent) ?_
    intro hi
    have hvote : ((s.node i).restart T sent).lastVoteEpoch = (s.node i).saved.lastVoteEpoch := by
      unfold Node.restart
      dsimp only
      split <;> rfl
    exact Nat.le_of_eq (he hi ▸ hvote.symm)

end

theorem start (currentEpoch : Nat → Nat) (configEpoch : Nat → Nat → Nat) :
    Inv T (.start currentEpoch configEpoch) := by
  constructor
  · intro i
    refine ⟨fun _ => Nat.zero_le _, fun _ => Nat.zero_le _, Int.le_refl _, ?_, ?_⟩
    · intro _ _ _
      rfl
    intro _ _ hsent
    cases hsent
  · intro g hg
    cases hg
  · exact .nil
  · intro i e
    exact Nat.le_refl 0
  intro w hw
  cases hw

end Inv

/-- Every event of a run meets the condition in the state before it. -/
def RunMeets (T : Topology) (s : System) : List (Event cfg) → Prop
  | [] => True
  | e :: es => e.Meets T s ∧ RunMeets T (s.step T e) es

instance decidableRunMeets (T : Topology) :
    ∀ (s : System) (es : List (Event cfg)), Decidable (RunMeets T s es)
  | _, [] => .isTrue trivial
  | s, e :: es =>
    have := decidableRunMeets T (s.step T e) es
    inferInstanceAs (Decidable (e.Meets T s ∧ RunMeets T (s.step T e) es))

theorem Inv.run (h : Inv T s) (hes : RunMeets T s es) : Inv T (s.run T es) := by
  induction es generalizing s with
  | nil => exact h
  | cons e es ih => exact ih (h.step hes.1) hes.2

/-! ## Safety -/

namespace Inv

variable {s : System}

theorem eq_of_grants (h : Inv T s) (hg : (i, j, e) ∈ s.grants)
    (hg' : (i, j', e) ∈ s.grants) : j = j' := by
  have : Std.Symm fun g g' : Nat × Nat × Nat => ¬ (g.1 = g'.1 ∧ g.2.2 = g'.2.2) :=
    ⟨fun _ _ hne heq => hne ⟨heq.1.symm, heq.2.symm⟩⟩
  by_contra hne
  refine h.once.forall hg hg' ?_ ⟨rfl, rfl⟩
  intro heq
  exact hne (congrArg (·.2.1) heq)

theorem eq_of_wins (h : Inv T s) (hi : (i, e) ∈ s.wins) (hj : (j, e) ∈ s.wins) : i = j := by
  let votes := (s.grants.filter (·.2.2 = e)).map fun g => (g.1, g.2.1)
  have hcount : ∀ k, s.votes k e = votes.countP (·.2 = k) := by
    intro k
    rw [countP_map, countP_filter]
    refine countP_congr fun g _ => ?_
    simp
  have hnodup : (votes.map Prod.fst).Nodup := by
    rw [map_map]
    refine pairwise_map.mpr ?_
    refine (h.once.filter (·.2.2 = e)).imp_of_mem ?_
    intro g g' hg hg' hne heq
    have he := of_decide_eq_true (mem_filter.mp hg).2
    have he' := of_decide_eq_true (mem_filter.mp hg').2
    exact hne ⟨heq, he.trans he'.symm⟩
  have hmem : ∀ v ∈ votes, v.1 ∈ T.voters := by
    intro v hv
    obtain ⟨g, hg, rfl⟩ := mem_map.mp hv
    exact (h.granted g (mem_of_mem_filter hg)).1
  refine Lib.eq_of_quorum hnodup hmem ?_ ?_
  · rw [← hcount]
    exact h.wins _ hi
  rw [← hcount]
  exact h.wins _ hj

end Inv

/-- **Elections are safe.** In every run in which no master is restarted with a vote that is not
saved, and no vote is counted outside its election, a master votes for at most one slave in an
epoch, and at most one slave wins the election of an epoch. -/
theorem election_safe {currentEpoch : Nat → Nat} {configEpoch : Nat → Nat → Nat}
    {es : List (Event cfg)} (hes : RunMeets T (.start currentEpoch configEpoch) es) :
    (∀ i j j' e, (i, j, e) ∈ ((System.start currentEpoch configEpoch).run T es).grants →
      (i, j', e) ∈ ((System.start currentEpoch configEpoch).run T es).grants → j = j') ∧
    ∀ j j' e, (j, e) ∈ ((System.start currentEpoch configEpoch).run T es).wins →
      (j', e) ∈ ((System.start currentEpoch configEpoch).run T es).wins → j = j' := by
  have h : Inv T ((System.start currentEpoch configEpoch).run T es) := (Inv.start _ _).run hes
  exact ⟨fun i j j' e => h.eq_of_grants, fun j j' e => h.eq_of_wins⟩

/-! ## Runs -/

def fiveNodes : Topology where
  nodes := [1, 2, 3, 4, 5]
  nodup := by decide
  slaveof i := if i = 4 ∨ i = 5 then some 3 else none
  slotsOf i := if i = 1 then [0] else if i = 2 then [1] else if i = 3 then [2] else []
  slots j := if j = 0 then some 1 else if j = 1 then some 2 else if j = 2 then some 3 else none

def oneSecond : Config := ⟨1000, 0, 10⟩

def clockAt (t : Nat) : Clock oneSecond where
  now := 10000 + t
  late := by
    have : oneSecond.authRetryTime = 4000 := by decide
    omega

def receive (t : Nat) : PacketView oneSecond := ⟨clockAt t, (· = 3), true⟩

def failover (t : Nat) : FailoverView oneSecond := ⟨clockAt t, true, 0, 0, 0, false, false⟩

/-- The slave 4 asks for votes, and the masters 1 and 2 vote for it. -/
def firstVotes : List (Event oneSecond) :=
  [.cron 4 (failover 0), .cron 4 (failover 600), .deliver 1 (receive 600), .deliver 1 (receive 600)]

def firstWin : List (Event oneSecond) :=
  firstVotes ++ [.deliver 3 (receive 600), .deliver 3 (receive 600), .cron 4 (failover 700)]

theorem election_safe_first_win :
    ((System.start (fun _ => 0) fun _ _ => 0).run fiveNodes firstWin).wins = [(4, 1)] ∧
    ∀ j, (j, 1) ∈ ((System.start (fun _ => 0) fun _ _ => 0).run fiveNodes firstWin).wins →
      j = 4 := by
  have hwins : ((System.start (fun _ => 0) fun _ _ => 0).run fiveNodes firstWin).wins = [(4, 1)] := by
    decide +kernel
  have hmeets : RunMeets fiveNodes (.start (fun _ => 0) fun _ _ => 0) firstWin := by decide +kernel
  refine ⟨hwins, fun j hj => (election_safe hmeets).2 j 4 1 hj ?_⟩
  rw [hwins]
  exact mem_singleton_self _

/-- Both masters are restarted after they have voted, and vote for the slave 5 in the same epoch. -/
def restarted : List (Event oneSecond) :=
  firstWin ++ [.restart 1 false, .restart 2 false, .cron 5 (failover 1000), .cron 5 (failover 1600),
    .deliver 8 (receive 1600), .deliver 8 (receive 1600), .deliver 10 (receive 1600),
    .deliver 10 (receive 1600), .cron 5 (failover 1700)]

/-- The votes for the slave 4 arrive after it has scheduled its second election, in which the masters
vote for the slave 5. -/
def lateVotes : List (Event oneSecond) :=
  firstVotes ++ [.deliver 2 (receive 600), .cron 4 (failover 5000), .cron 5 (failover 5000),
    .deliver 2 (receive 5000), .deliver 2 (receive 5000), .cron 4 (failover 5600),
    .cron 5 (failover 5600), .deliver 8 (receive 5600), .deliver 8 (receive 5600),
    .deliver 10 (receive 5600), .deliver 10 (receive 5600), .cron 4 (failover 5700),
    .cron 5 (failover 5700)]

/-- After a restart the masters vote twice in the epoch 1, and both slaves win it. Without a restart
both slaves win the epoch 2. -/
theorem two_winners : ((System.start (fun _ => 0) fun _ _ => 0).run fiveNodes restarted).grants =
      [(1, 4, 1), (2, 4, 1), (1, 5, 1), (2, 5, 1)] ∧
    ((System.start (fun _ => 0) fun _ _ => 0).run fiveNodes restarted).wins = [(4, 1), (5, 1)] ∧
    ((System.start (fun _ => 0) fun _ _ => 0).run fiveNodes lateVotes).wins = [(4, 2), (5, 2)] := by
  refine ⟨?_, ?_, ?_⟩ <;> decide +kernel

end UfsRedis.Cluster
