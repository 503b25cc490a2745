import UfsRedis.Protocol.Lengths

/-!
# The reports of the server

The graph of the server stays as `uinit` made it. `server_reports_iff` says which commands of users
leave the graphs of the clients the same, so that all nodes have the same replies in every state.
An idle operation is idle wherever it is executed: `Stable` holds for the first partition, as one of
two transformed operations never changes, and both ways around a square meet.
-/

namespace UfsRedis

open List Lib

/-- The operation leaves the partition that `S` denotes: it is a union of elements of one class, a
split of an element that is alone, or has no operand but `*`. -/
def Idle (S : Sds) (op : UfsOp) : Prop := op.act (denote S) = denote S

/-- Single-element commands on the keys that are rejected or idle. -/
def IdleCmd (inits : List (Sds × Sds)) (argv : List Sds) : Prop :=
  ∀ x ∈ inits, ∀ op, LocalCmd x.1 op argv → OpOk (elementsOf x.2) op → Idle x.2 op

/-- `p` is the first partition of a key that was initialised with `S`. -/
def AtStart (S : Sds) (p : Setoid Sds) : Prop := star ∉ elementsOf S ∧ p = denote S

theorem OpKeeps.idle {S op} (h : OpKeeps AtStart S op) (hstar : star ∉ elementsOf S) : Idle S op :=
  (h.2 _ ⟨hstar, rfl⟩).2

theorem Idle.keeps {S op} (h : Idle S op) : ∀ p, AtStart S p → AtStart S (op.act p) := by
  rintro p ⟨hstar, rfl⟩
  exact ⟨hstar, h⟩

theorem stable_atStart : Stable AtStart := by
  intro S p op1 op2 op1' op2' hE hp h1 h2 htr
  obtain ⟨hstar, rfl⟩ := hp
  have hi1 := h1.idle hstar
  have hi2 := h2.idle hstar
  have hsquare := htr.square hE hstar h1.1 h2.1
  rw [hi1, hi2] at hsquare
  have hsame : op1' = op1 ∨ op2' = op2 := by
    cases htr
    · exact .inl rfl
    · exact .inl rfl
    · exact .inr rfl
    · exact .inl rfl
  rcases hsame with rfl | rfl
  · exact ⟨hi1.keeps, Idle.keeps (hsquare.trans hi1)⟩
  · exact ⟨Idle.keeps (hsquare.symm.trans hi2), hi2.keeps⟩

variable {ports : List Nat} {inits : List (Sds × Sds)} {sys sys' : System}
  {events : List Event} {p : Peer}

/-- All queries of all keys have the same replies at the server and at every client. -/
def System.Agrees (inits : List (Sds × Sds)) (sys : System) : Prop :=
  ∀ x ∈ inits, ∀ p ∈ sys.peers, SameReports x.1 (elementsOf x.2) sys.server p.node

theorem RunOk.of_prefix {evs} (h : RunOk ports inits events) (hevs : evs <+: events) :
    RunOk ports inits evs where
  config := h.config
  users e he := h.users e (hevs.subset he)
  count i := (hevs.sublist.countP_le).trans (h.count i)

theorem System.step_user {i argv} (hp : sys.peers[i]? = some p) (hm : p.node.masterhost = true)
    (h : sys.step (.user i argv) = .ok sys') :
    ∃ p' o, p' ∈ sys'.peers ∧ localProc p.node argv = .ok (p'.node, o) := by
  rw [System.step, hp] at h
  simp only [Peer.exec, call, bind_eq_ok, Except.ok.injEq] at h
  obtain ⟨p', ⟨⟨n, o, dests⟩, ⟨⟨n', o'⟩, hproc, heq⟩, rfl⟩, rfl⟩ := h
  cases heq
  rw [controlAlg, if_pos hm] at hproc
  exact ⟨_, _, mem_set (List.getElem?_eq_some_iff.mp hp).1 _, hproc⟩

/-- A command after which the server and the clients still agree is rejected or idle. -/
theorem RunOk.idleCmd {evs i argv} (h : RunOk ports inits (evs ++ [.user i argv]))
    (hi : i < ports.length) (hsys : System.exec ports inits evs = .ok sys) (hagree : sys.Agrees inits)
    (hsys' : System.exec ports inits (evs ++ [.user i argv]) = .ok sys')
    (hagree' : sys'.Agrees inits) : IdleCmd inits argv := by
  intro x hx op hcmd hop
  obtain ⟨_, hsys1, hrun, hreports⟩ := h.init.reports
  obtain rfl := Except.ok.inj (hsys.symm.trans hsys1)
  obtain ⟨_, hsys1, -, hreports'⟩ := h.reports
  obtain rfl := Except.ok.inj (hsys'.symm.trans hsys1)
  -- the client before and after the command
  obtain ⟨p, hp⟩ : ∃ p, sys.peers[i]? = some p := by
    refine ⟨_, getElem?_eq_getElem ?_⟩
    rwa [← hrun.inv.static.ports_eq, length_map] at hi
  have hmem := mem_of_getElem? hp
  rw [System.exec_snoc hsys] at hsys'
  obtain ⟨p', o, hp', hproc⟩ := System.step_user hp (hrun.inv.static.clients p hmem).1 hsys'
  obtain ⟨g, q, hg, hgkey, hshows, hq⟩ := hreports x hx p hmem
  obtain ⟨g', q', hg', -, hshows', hq'⟩ := hreports' x hx p' hp'
  obtain rfl := hq.mp (hagree x hx p hmem)
  obtain rfl := hq'.mp (hagree' x hx p' hp')
  obtain ⟨k, cv, hk, -, hcase⟩ := localProc_cases hproc
  rw [hcmd.keyArg, Except.ok.injEq] at hk
  subst hk
  rcases hcase with ⟨e, hcheck, -⟩ | ⟨-, oids, oid, op', n₁, g₁, V, hstep⟩
  · rcases hcmd.checkArgv hg hshows with ⟨-, -, hnot⟩ | ⟨hok, -⟩
    · exact absurd hop hnot
    · rw [hcheck] at hok
      cases hok
  obtain ⟨g₂, hshows₂, -, -, hg₂, hn₁, -⟩ := hstep.effect hcmd hop hg hgkey hshows
  have hsame : p'.node.graph x.1 = some g₁ := by
    rw [hstep.node]
    exact hstep.graph
  rw [hg', Option.some.injEq, ← hg₂] at hsame
  rw [Idle, ← hshows₂.partition, ← hsame, hshows'.partition]

/-- After commands that are rejected or idle, all clients have the first partition. -/
theorem RunOk.agrees (h : RunOk ports inits events) (hstar : ∀ x ∈ inits, star ∉ elementsOf x.2)
    (hidle : ∀ e ∈ events, UserHas (IdleCmd inits) e) :
    ∃ sys, System.exec ports inits events = .ok sys ∧ sys.Agrees inits := by
  obtain ⟨sys, hsys, -, hreports⟩ := h.reports
  refine ⟨sys, hsys, fun x hx p hp => ?_⟩
  have hcmds : ∀ e ∈ events, UserHas (UserKeeps AtStart inits) e := by
    intro e he
    have hi := hidle e he
    have hu := h.users e he
    cases e with
    | toServer i => trivial
    | toClient i => trivial
    | user i argv =>
    obtain ⟨y, hy, op, hcmd⟩ := hu
    exact ⟨y.1, op, hcmd, fun S hS hop => ⟨hop, (hi _ hS op hcmd hop).keeps⟩⟩
  have hsized := Sized.exec stable_atStart h.config.keys h.config.wellFormed
    (fun x hx => ⟨hstar x hx, rfl⟩) hcmds hsys
  obtain ⟨g, q, hg, -, hshows, hq⟩ := hreports x hx p hp
  obtain ⟨g', q', hg', -, hshows', -, hq'⟩ := (hsized.node p hp).graph hx
  rw [hg, Option.some.injEq] at hg'
  subst hg'
  rw [hq, ← hq', ← hshows.partition, hshows'.partition]

/-- **The server and the clients agree** in every state of a run, on all keys, iff every command of a
user is rejected or idle. -/
theorem server_reports_iff (h : RunOk ports inits events)
    (hstar : ∀ x ∈ inits, star ∉ elementsOf x.2)
    (hclients : ∀ i argv, .user i argv ∈ events → i < ports.length) :
    (∀ evs, evs <+: events → ∃ sys, System.exec ports inits evs = .ok sys ∧ sys.Agrees inits) ↔
      ∀ e ∈ events, UserHas (IdleCmd inits) e := by
  refine ⟨fun hall e he => ?_, fun hidle evs hevs =>
    (h.of_prefix hevs).agrees hstar fun e he => hidle e (hevs.subset he)⟩
  cases e with
  | toServer i => trivial
  | toClient i => trivial
  | user i argv =>
  obtain ⟨evs, rest, rfl⟩ := append_of_mem he
  have hpre : evs ++ [.user i argv] <+: evs ++ .user i argv :: rest := ⟨rest, by simp⟩
  obtain ⟨sys, hsys, hagree⟩ := hall _ (prefix_append _ _)
  obtain ⟨sys', hsys', hagree'⟩ := hall _ hpre
  exact (h.of_prefix hpre).idleCmd (hclients i argv he) hsys hagree hsys' hagree'

/-- Client 0 joins two elements that are in one class. -/
theorem server_reports_iff_idle_union : Idle ['a', ',', 'b'] (unionOp ['a'] ['b']) ∧ ∀ evs,
    evs <+: [.user 0 [unionCmd, ['a'], ['b'], ['k']], .toServer 0, .toClient 1] →
    ∃ sys, System.exec [6380, 6381] [(['k'], ['a', ',', 'b'])] evs = .ok sys ∧
      sys.Agrees [(['k'], ['a', ',', 'b'])] := by
  have hidle : Idle ['a', ',', 'b'] (unionOp ['a'] ['b']) := by
    have hab : denote ['a', ',', 'b'] ['a'] ['b'] :=
      (WellFormed.denote_iff (by decide)).mpr (by decide)
    rw [Idle, act_union (by decide) (by decide) (by decide) (by decide)]
    refine Partition.glue_eq_self ?_
    rintro x (rfl | rfl) y (rfl | rfl)
    exacts [Setoid.refl' _ _, hab, Setoid.symm' _ hab, Setoid.refl' _ _]
  refine ⟨hidle, (server_reports_iff ⟨demoRun_ok.config, ?_,
    fun i => countP_le_length.trans (by decide)⟩ (by decide) ?_).mpr ?_⟩
  · simp only [forall_mem_cons, UserOk]
    exact ⟨⟨_, mem_singleton_self _, unionOp ['a'] ['b'], .union (by decide) (by decide)⟩, trivial,
      trivial, by simp⟩
  · intro i argv he
    simp only [mem_cons, Event.user.injEq, reduceCtorEq, or_false, not_mem_nil] at he
    rw [he.1]
    decide
  simp only [forall_mem_cons, UserHas]
  refine ⟨fun x hx op hcmd _ => ?_, trivial, trivial, by simp⟩
  obtain rfl := mem_singleton.mp hx
  cases hcmd
  exact hidle

/-- After one `union`, the server still reports the classes of its `uinit`. -/
theorem server_reports_differ : ∃ sys, System.exec [6380] [(['k'], ['a', '/', 'b'])]
      [.user 0 [unionCmd, ['a'], ['b'], ['k']], .toServer 0] = .ok sys ∧ sys.Quiet ∧
      ∃ p ∈ sys.peers, ∃ S S', umembersCommand sys.server [umembersCmd, ['k']] = .ok S ∧
        umembersCommand p.node [umembersCmd, ['k']] = .ok S' ∧ denote S ≠ denote S' := by
  refine exists_ok_imp (P := fun sys => sys.Quiet ∧ ∃ p ∈ sys.peers,
    umembersCommand sys.server [umembersCmd, ['k']] = .ok ['a', '/', 'b'] ∧
    umembersCommand p.node [umembersCmd, ['k']] = .ok ['a', ',', 'b']) (by decide +kernel) ?_
  rintro sys - ⟨hquiet, p, hp, hS, hS'⟩
  refine ⟨hquiet, p, hp, _, _, hS, hS', fun heq => ?_⟩
  have hab : denote ['a', ',', 'b'] ['a'] ['b'] :=
    (WellFormed.denote_iff (by decide)).mpr (by decide)
  rw [← heq] at hab
  exact absurd ((WellFormed.denote_iff (by decide)).mp hab) (by decide)

end UfsRedis
