import UfsRedis.Protocol.Psync

/-!
# The flag `CLIENT_UNDER_FEED`

`prepareClientToWrite` queues a reply for a slave only if `CLIENT_UNDER_FEED` is set, so that the
stream of a slave has commands and no replies. Both functions that feed the slaves set the flag of
every slave, skip some of the slaves, and clear the flag of the others.

`Action` adds to the events of the server the replies to commands that a slave sends. A run is
`Quiet` if no flag stays set after the slaves have been fed and no reply is queued, and `quiet_iff`
says which runs are: those where no slave was skipped.
-/

namespace UfsRedis.Repl

open List

/-- What happens at the server: an event, or a call of `addReply` that is not part of feeding the
slaves, for the slave `id`. -/
inductive Action where
  | event (e : Event)
  | reply (id : Nat) (p : List Char)

namespace Event

def feeds : Event → Bool
  | feedSlaves _ => true
  | feedExSlave _ _ => true
  | _ => false

/-- A slave that is skipped when the slaves are fed: it waits for `BGSAVE` to start, or the command
came from it. -/
def Skips (e : Event) (c : Link) : Prop :=
  e.feeds = true ∧ (c.replstate = .waitBgsaveStart ∨ e.originator = some c.id)

instance (e : Event) (c : Link) : Decidable (e.Skips c) := by
  unfold Skips
  infer_instance

end Event

namespace Server

variable {m : Server} {e : Event}

def NoneUnderFeed (m : Server) : Prop := ∀ c ∈ m.slaves, c.flags.underFeed = false

/-- A reply to the slave `id`. -/
def reply (m : Server) (id : Nat) (p : List Char) : Server :=
  m.mapSlaves fun c => if c.id = id then c.addReply p else c

def act (m : Server) : Action → Server
  | .event e => m.step e
  | .reply id p => m.reply id p

/-- After the slaves have been fed no slave has the flag, and no reply is queued, in a run. -/
def Quiet (m : Server) : List Action → Prop
  | [] => True
  | a :: acts =>
    (match a with
      | .event e => e.feeds = true → (m.step e).NoneUnderFeed
      | .reply id p => (m.reply id p).slaves.map (·.out) = m.slaves.map (·.out)) ∧
    (m.act a).Quiet acts

/-- Whenever the slaves are fed, none of them is skipped, in a run. -/
def SkipsNone (m : Server) : List Action → Prop
  | [] => True
  | a :: acts =>
    (match a with
      | .event e => ∀ c ∈ m.slaves, ¬ e.Skips c
      | .reply _ _ => True) ∧
    (m.act a).SkipsNone acts

/-! ## One step -/

theorem underFeed_feedEx (hc : c.Wired) (id : Nat) (argv : List Sds) :
    (c.feedEx id argv).flags.underFeed = true ↔ (Event.feedExSlave id argv).Skips c := by
  unfold Link.feedEx Event.Skips Event.feeds Event.originator
  by_cases hid : c.id = id
  · simp [hid, Link.setUnderFeed]
  have hid' : ¬ id = c.id := fun h => hid h.symm
  rw [if_neg hid]
  by_cases hs : c.replstate = .waitBgsaveStart
  · simp [Link.feed_skip hs, hs, Link.setUnderFeed]
  · simp [Link.feed_eq hc hs, hs, hid', Link.setUnderFeed]

theorem underFeed_feed (hc : c.Wired) (argv : List Sds) :
    (c.feed argv).flags.underFeed = true ↔ (Event.feedSlaves argv).Skips c := by
  unfold Event.Skips Event.feeds Event.originator
  by_cases hs : c.replstate = .waitBgsaveStart
  · simp [Link.feed_skip hs, hs, Link.setUnderFeed]
  · simp [Link.feed_eq hc hs, hs, Link.setUnderFeed]

theorem slaves_feedWith (hm : m.Ok) (argv : List Sds) (f : Link → Link) :
    (m.feedWith argv f).slaves = m.slaves.map f := by
  rcases feedWith_cases hm.master argv f with ⟨hb, h⟩ | ⟨hb, h⟩
  · have hnil : m.slaves = [] := by
      by_contra hne
      simpa [hb] using m.has_backlog hne
    rw [h, hnil]
    rfl
  rw [h]
  show (m.feedCommand argv).slaves.map f = _
  rw [(wrote_feedCommand hb argv).slaves]

theorem noneUnderFeed_step_iff (hm : m.Ok) (he : e.feeds = true) :
    (m.step e).NoneUnderFeed ↔ ∀ c ∈ m.slaves, ¬ e.Skips c := by
  have key {f : Link → Link} {argv : List Sds}
      (hf : ∀ c, c.Wired → ((f c).flags.underFeed = true ↔ e.Skips c)) :
      (m.feedWith argv f).NoneUnderFeed ↔ ∀ c ∈ m.slaves, ¬ e.Skips c := by
    unfold NoneUnderFeed
    rw [slaves_feedWith hm, forall_mem_map]
    refine forall₂_congr fun c hc => ?_
    rw [← Bool.not_eq_true, hf c (hm.wired c hc)]
  cases e with
  | feedSlaves argv => exact key fun c hc => underFeed_feed hc argv
  | feedExSlave id argv => exact key fun c hc => underFeed_feedEx hc id argv
  | _ => cases he

theorem NoneUnderFeed.mapSlaves (h : m.NoneUnderFeed)
    (hf : ∀ c, (f c).flags = c.flags) : (m.mapSlaves f).NoneUnderFeed := by
  intro c hc
  obtain ⟨c0, hc0, rfl⟩ := mem_map.mp hc
  rw [hf]
  exact h c0 hc0

theorem NoneUnderFeed.filterSlaves (h : m.NoneUnderFeed) (p : Link → Bool) :
    (m.filterSlaves p).NoneUnderFeed := fun c hc => h c (mem_of_mem_filter hc)

theorem underFeed_attachLink (k : Conn) (req : SyncRequest) :
    (m.attachLink k.link req).flags.underFeed = false := by
  have hfull : (m.fullResync k.link).flags.underFeed = false := by
    rw [fullResync]
    split
    · split
      · split <;> rfl
      · rfl
    · rfl
  cases req with
  | sync => exact hfull
  | psync replid offset =>
    obtain _ | offset := offset
    · exact hfull
    rw [attachLink]
    rcases hc : m.masterTryPartialResynchronization k.link replid offset with _ | c
    · exact hfull
    rw [Option.getD_some, masterTryPartialResynchronization_eq hc]
    rfl

theorem NoneUnderFeed.step (h : m.NoneUnderFeed) (he : e.feeds = false) :
    (m.step e).NoneUnderFeed := by
  cases e with
  | feedSlaves argv => cases he
  | feedExSlave id argv => cases he
  | sync k req newid =>
    rw [Server.step]
    rcases syncCommand_cases m k req newid with heq | ⟨-, heq⟩
    · rwa [heq]
    rw [heq]
    have hslaves : (m.addSlave (m.attachLink k.link req) newid).slaves =
        m.slaves ++ [m.attachLink k.link req] := by
      unfold addSlave
      split <;> rfl
    intro c hc
    rw [hslaves] at hc
    rcases mem_append.mp hc with hc | hc
    · exact h c hc
    rw [mem_singleton.mp hc]
    exact underFeed_attachLink k req
  | bgsave target =>
    rw [Server.step]
    split
    · obtain _ | target := target
      · exact h.filterSlaves _
      have := h.mapSlaves (f := fun c => if c.replstate = .waitBgsaveStart then
        { c with psyncInitialOffset := m.masterReplOffset, replstate := .waitBgsaveEnd } else c)
        fun c => by split <;> rfl
      exact this
    · exact h
  | bgsaveDone =>
    have := h.mapSlaves (f := fun c => if c.replstate = .waitBgsaveEnd then
      { c with replstate := .sendBulk } else c) fun c => by split <;> rfl
    exact this
  | putSlaveOnline id => exact h.mapSlaves fun c => by split <;> rfl
  | freeClient id => exact h.filterSlaves _
  | resizeBacklog newsize =>
    rw [Server.step, resizeReplicationBacklog]
    split <;> exact h
  | freeBacklog newid =>
    rw [Server.step, freeReplicationBacklog]
    split <;> exact h

theorem reply_eq_self (hm : m.Ok) (h : m.NoneUnderFeed) (id : Nat) (p : List Char) :
    m.reply id p = m := by
  have hlink : ∀ c ∈ m.slaves, (if c.id = id then c.addReply p else c) = c := by
    intro c hc
    have hf : c.flags = .ofSlave false := by rw [(hm.wired c hc).flags, h c hc]
    rw [Link.addReply_ofSlave_false hf, ite_self]
  have hmap : m.slaves.map (fun c => if c.id = id then c.addReply p else c) = m.slaves := by
    rw [map_congr_left hlink, map_id']
  unfold reply mapSlaves
  cases m
  simp only [hmap]

/-! ## Runs -/

theorem quiet_iff_of_noneUnderFeed (hm : m.Ok) (h : m.NoneUnderFeed) (acts : List Action) :
    m.Quiet acts ↔ m.SkipsNone acts := by
  induction acts generalizing m with
  | nil => exact Iff.rfl
  | cons a acts ih =>
    unfold Quiet SkipsNone
    cases a with
    | reply id p =>
      show ((m.reply id p).slaves.map (·.out) = m.slaves.map (·.out) ∧ (m.reply id p).Quiet acts) ↔
        (True ∧ (m.reply id p).SkipsNone acts)
      rw [reply_eq_self hm h, ih hm h]
      exact and_congr_left' (iff_of_true rfl trivial)
    | event e =>
      show (_ ∧ (m.step e).Quiet acts) ↔ (_ ∧ (m.step e).SkipsNone acts)
      by_cases he : e.feeds = true
      · have hiff := noneUnderFeed_step_iff hm he
        constructor
        · rintro ⟨h1, h2⟩
          have hnext := h1 he
          exact ⟨hiff.mp hnext, (ih (hm.step e) hnext).mp h2⟩
        rintro ⟨h1, h2⟩
        have hnext := hiff.mpr h1
        exact ⟨fun _ => hnext, (ih (hm.step e) hnext).mpr h2⟩
      rw [ih (hm.step e) (h.step (by simpa using he))]
      refine and_congr_left' (iff_of_true (fun h' => absurd h' he) fun c _ hs => he hs.1)

end Server

/-- **Replies and the stream.** After every command that was written to the slaves no slave has
`CLIENT_UNDER_FEED`, and no reply is queued for a slave, exactly in the runs where no slave waited
for `BGSAVE` to start, or was left out as the originator, when a command was written. -/
theorem quiet_iff (id₀ : Sds) {size : Nat} (hsize : 0 < size) (offset₀ : Int) (acts : List Action) :
    (Server.boot id₀ size hsize offset₀).Quiet acts ↔
      (Server.boot id₀ size hsize offset₀).SkipsNone acts :=
  Server.quiet_iff_of_noneUnderFeed (Server.boot_ok id₀ size hsize offset₀)
    (fun _ hc => absurd hc not_mem_nil) acts

/-- A slave is attached and brought online, commands of a user and of another slave are written, and
it gets replies in between. -/
def quietActs : List Action :=
  [.event (.sync (conn 1) .sync ['b']), .reply 1 ['+', 'O', 'K', '\r', '\n'],
    .event (.bgsave (some .disk)), .event (.feedSlaves uinitArgv), .event .bgsaveDone,
    .event (.putSlaveOnline 1), .event (.feedExSlave 2 splitArgv),
    .reply 1 ['+', 'O', 'K', '\r', '\n']]

theorem quiet_iff_online_slave : (Server.boot ['a'] 16384 (by decide) 0).Quiet quietActs := by
  refine (quiet_iff ['a'] (by decide) 0 quietActs).mpr ?_
  refine ⟨?_, trivial, ?_, ?_, ?_, ?_, ?_, trivial, trivial⟩ <;> decide +kernel

/-- A command is written while a slave waits for `BGSAVE` to start: its flag stays set, and a later
reply is queued. So it is for a slave whose own command is written to the others. -/
theorem reply_queued : (((Server.boot ['a'] 16384 (by decide) 0).run
        [.sync (conn 1) .sync ['b'], .feedSlaves uinitArgv]).reply 1 ['+', 'O', 'K']).link 1 =
      some { (conn 1).link with
        flags := .ofSlave true, replstate := .waitBgsaveStart, out := ['+', 'O', 'K'] } ∧
    ((oneSlave.run [.feedExSlave 1 splitArgv]).reply 1 ['+', 'O', 'K']).link 1 =
      some ((link₁ ['+', 'O', 'K']).setUnderFeed true) := by
  refine ⟨?_, ?_⟩ <;> decide +kernel

end UfsRedis.Repl
