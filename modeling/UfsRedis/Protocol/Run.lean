import UfsRedis.Protocol.Boot

/-!
# Runs

A run begins with `uinit` of each key and is a list of events in any order. By `RunInv.exec` no
event of a run fails, and the invariant holds after each.
-/

namespace UfsRedis

open List Lib

/-- The state after `events`, from the start with clients that listen on `ports` and `uinit key arg`
for each of `inits`. -/
def System.exec (ports : List Nat) (inits : List (Sds × Sds)) (events : List Event) :
    Except Fault System := do
  (← System.boot ports inits).run events

/-- The commands of users are single-element commands on the keys. -/
def UserOk (inits : List (Sds × Sds)) : Event → Prop
  | .user _ argv => ∃ x ∈ inits, ∃ op, LocalCmd x.1 op argv
  | .toServer _ => True
  | .toClient _ => True

/-- It is a command of a user at client `i`. -/
def Event.isUser (i : Nat) : Event → Bool
  | .user j _ => j = i
  | .toServer _ => false
  | .toClient _ => false

/-- The conditions on a run: on the configuration, and that each client has at most 9999 commands of
users, all of one element for each operand. -/
structure RunOk (ports : List Nat) (inits : List (Sds × Sds)) (events : List Event) : Prop where
  config : ConfigOk ports inits
  users : ∀ e ∈ events, UserOk inits e
  count : ∀ i, events.countP (Event.isUser i) ≤ 9999

variable {ports : List Nat} {inits : List (Sds × Sds)} {sys : System} {events : List Event}
  {e : Event}

theorem RunOk.init (h : RunOk ports inits (events ++ [e])) : RunOk ports inits events where
  config := h.config
  users e he := h.users e (mem_append_left _ he)
  count i := by
    have := h.count i
    rw [countP_append] at this
    omega

theorem System.exec_snoc (h : System.exec ports inits events = .ok sys) :
    System.exec ports inits (events ++ [e]) = sys.step e := by
  rw [System.exec, bind_eq_ok] at h
  obtain ⟨sys0, hboot, hrun⟩ := h
  rw [System.run] at hrun
  rw [System.exec, hboot, ok_bind, System.run, foldlM_append, hrun, ok_bind, foldlM_cons]
  cases sys.step e <;> rfl

/-- **One step** keeps the invariant, and does not fail. -/
theorem Inv.step (h : Inv ports inits sys) (hc : ConfigOk ports inits) (he : UserOk inits e)
    (hnum : ∀ (i : Nat) (p : Peer), e.isUser i → sys.peers[i]? = some p → p.node.opNum < 9999) :
    ∃ sys', sys.step e = .ok sys' ∧ Inv ports inits sys' ∧ Kept sys sys' ∧
      ∀ (j : Nat) (q' : Peer), sys'.peers[j]? = some q' →
        ∃ q, sys.peers[j]? = some q ∧ q'.node.opNum ≤ q.node.opNum + [e].countP (Event.isUser j) := by
  have hskip : sys.step e = .ok sys → ∃ sys', sys.step e = .ok sys' ∧ Inv ports inits sys' ∧
      Kept sys sys' ∧ ∀ (j : Nat) (q' : Peer), sys'.peers[j]? = some q' →
        ∃ q, sys.peers[j]? = some q ∧
          q'.node.opNum ≤ q.node.opNum + [e].countP (Event.isUser j) := fun hs =>
    ⟨sys, hs, h, .refl sys, fun j q hq => ⟨q, hq, Nat.le_add_right _ _⟩⟩
  cases e with
  | user i argv =>
    rcases hp : sys.peers[i]? with _ | p
    · exact hskip (by rw [System.step, hp])
    obtain ⟨x, hx, op, hcmd⟩ := he
    obtain ⟨p', hstep, hinv, hkept, hle⟩ :=
      h.user hc hx hcmd hp (hnum i p (decide_eq_true rfl) hp)
    refine ⟨_, hstep, hinv, hkept, fun j q' hq' => ?_⟩
    rcases getElem?_set_cases hq' with ⟨rfl, rfl⟩ | ⟨-, hq⟩
    · refine ⟨p, hp, hle.trans (Nat.le_of_eq ?_)⟩
      simp [Event.isUser]
    · exact ⟨q', hq, Nat.le_add_right _ _⟩
  | toServer i =>
    rcases hp : sys.peers[i]? with _ | p
    · exact hskip (by rw [System.step, hp])
    rcases hup : p.up with _ | ⟨argv, rest⟩
    · exact hskip (by rw [System.step, hp]; simp only [hup])
    obtain ⟨spaces', msg, hstep, hinv, hkept⟩ := h.toServer hc hp hup
    refine ⟨_, hstep, hinv, hkept, fun j q' hq' => ?_⟩
    rcases h.static.served_peers hq' with ⟨rfl, rfl⟩ | ⟨-, q, hq, rfl⟩
    · exact ⟨p, hp, Nat.le_add_right _ _⟩
    · exact ⟨q, hq, Nat.le_add_right _ _⟩
  | toClient i =>
    rcases hp : sys.peers[i]? with _ | p
    · exact hskip (by rw [System.step, hp])
    rcases hdown : p.down with _ | ⟨argv, rest⟩
    · exact hskip (by rw [System.step, hp]; simp only [hdown])
    obtain ⟨p', hstep, hinv, hkept, hnum'⟩ := h.toClient hc hp hdown
    refine ⟨_, hstep, hinv, hkept, fun j q' hq' => ?_⟩
    rcases getElem?_set_cases hq' with ⟨rfl, rfl⟩ | ⟨-, hq⟩
    · exact ⟨p, hp, by omega⟩
    · exact ⟨q', hq, Nat.le_add_right _ _⟩

/-- The states of a run. -/
structure RunInv (ports : List Nat) (inits : List (Sds × Sds)) (events : List Event)
    (sys : System) : Prop where
  inv : Inv ports inits sys
  count : ∀ (i : Nat) (p : Peer), sys.peers[i]? = some p →
    p.node.opNum ≤ events.countP (Event.isUser i)

theorem RunInv.snoc (h : RunOk ports inits (events ++ [e])) (hinv : RunInv ports inits events sys) :
    ∃ sys', sys.step e = .ok sys' ∧ RunInv ports inits (events ++ [e]) sys' ∧ Kept sys sys' := by
  obtain ⟨sys', hstep, hinv', hkept, hcount⟩ :=
    hinv.inv.step h.config (h.users e (by simp)) fun i p hi hp => by
      have h1 := hinv.count i p hp
      have h2 := h.count i
      simp only [countP_append, countP_singleton, hi, if_true] at h2
      omega
  refine ⟨sys', hstep, ⟨hinv', fun j q' hq' => ?_⟩, hkept⟩
  obtain ⟨q, hq, hle⟩ := hcount j q' hq'
  have := hinv.count j q hq
  rw [countP_append]
  omega

/-- **A run does not fail, and the invariant holds after it.** -/
theorem RunInv.exec (h : RunOk ports inits events) :
    ∃ sys, System.exec ports inits events = .ok sys ∧ RunInv ports inits events sys := by
  induction events using List.reverseRecOn with
  | nil =>
    obtain ⟨sys, hboot, hinv, hnum, -⟩ := Inv.boot h.config
    refine ⟨sys, ?_, hinv, fun i p hp => ?_⟩
    · rw [System.exec, hboot, ok_bind]
      rfl
    rw [hnum p (mem_of_getElem? hp)]
    exact Nat.zero_le _
  | append_singleton events e ih =>
    obtain ⟨sys, hsys, hinv⟩ := ih h.init
    obtain ⟨sys', hstep, hinv', -⟩ := hinv.snoc h
    exact ⟨sys', by rw [System.exec_snoc hsys, hstep], hinv'⟩

/-- A run in which two clients change the same class at the same time. -/
def demoRun : List Event :=
  [.user 0 [unionCmd, ['a'], ['b'], ['k']], .user 1 [splitCmd, ['a'], ['k']], .toServer 0,
    .toServer 1, .toClient 0, .toClient 1]

theorem demoRun_ok : RunOk [6380, 6381] [(['k'], ['a', ',', 'b'])] demoRun := by
  refine ⟨⟨⟨by decide, by decide⟩, by decide, by decide⟩, fun e he => ?_,
    fun i => countP_le_length.trans (by decide)⟩
  simp only [demoRun, mem_cons, not_mem_nil, or_false] at he
  rcases he with rfl | rfl | rfl | rfl | rfl | rfl
  · exact ⟨_, mem_singleton_self _, unionOp ['a'] ['b'], .union (by decide) (by decide)⟩
  · exact ⟨_, mem_singleton_self _, splitOp ['a'], .split (by decide)⟩
  all_goals trivial

end UfsRedis
