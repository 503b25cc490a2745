import UfsRedis.Protocol.Replication

/-!
# Continuing the stream after a lost link

A slave is attached at some offset of the stream. It loses its link after it has received `r` bytes,
and asks for the stream from the next byte on.
-/

namespace UfsRedis.Repl

open List

namespace Event

theorem bytes_ne_nil {e : Event} {i : Nat} (h : e.originator = some i) : e.bytes ≠ [] := by
  cases e with
  | feedExSlave id argv => exact resp_ne_nil argv
  | _ => simp [originator] at h

theorem length_bytesTo_le (i : Nat) (e : Event) : (e.bytesTo i).length ≤ e.bytes.length := by
  rw [bytesTo]
  split <;> simp

theorem length_flatMap_bytesTo_le (i : Nat) (events : List Event) :
    (events.flatMap (·.bytesTo i)).length ≤ (events.flatMap (·.bytes)).length := by
  induction events with
  | nil => simp
  | cons e events ih =>
    have := length_bytesTo_le i e
    simp only [flatMap_cons, length_append]
    omega

theorem flatMap_bytesTo_eq_iff (i : Nat) (events : List Event) :
    events.flatMap (·.bytesTo i) = events.flatMap (·.bytes) ↔
      ∀ e ∈ events, e.originator ≠ some i := by
  induction events with
  | nil => simp
  | cons e events ih =>
    rw [flatMap_cons, flatMap_cons, forall_mem_cons, bytesTo]
    by_cases h : e.originator = some i
    · -- the command is missing, so what is queued is shorter
      rw [if_pos h, nil_append]
      refine iff_of_false (fun heq => ?_) fun h' => h'.1 h
      have hlen := congrArg length heq
      have hle := length_flatMap_bytesTo_le i events
      have hpos := length_pos_iff.mpr (bytes_ne_nil h)
      rw [length_append] at hlen
      omega
    rw [if_neg h, append_cancel_left_eq, ih]
    exact ⟨fun h' => ⟨h, h'⟩, fun h' => h'.2⟩

end Event

namespace Server

variable {m m₁ : Server} {b : Backlog} {c : Link} {p : List Char}

theorem bytesFrom_eq (hm : m.Ok) (hb : m.backlog = some b) (hlow : b.off ≤ offset)
    (hhigh : offset ≤ b.off + b.ring.histlen) : b.bytesFrom offset =
      m.stream.drop (m.stream.length - (m.masterReplOffset + 1 - offset).toNat) := by
  obtain ⟨s, ⟨t, ht⟩, hholds, hoff⟩ := hm.backlog b hb
  have hlen := hholds.histlen
  rw [Backlog.bytesFrom, ← ht, length_append]
  split
  · rw [drop_eq_nil_of_le (by rw [length_append]; omega)]
  have hpos : t.length + s.length - (m.masterReplOffset + 1 - offset).toNat =
      t.length + (s.length - b.ring.histlen + (offset - b.off).toNat) := by omega
  rw [hholds.read (by omega), hpos, drop_length_add_append]

/-- The master has the ID in its history, up to the offset, and the offset in its backlog. -/
def MayContinue (m : Server) (replid : Sds) (offset : Int) : Prop :=
  (sameId replid m.replid = true ∨
    (sameId replid m.replid2 = true ∧ offset ≤ m.secondReplidOffset)) ∧
  ∃ b, m.backlog = some b ∧ b.off ≤ offset ∧ offset ≤ b.off + b.ring.histlen

theorem masterTryPartialResynchronization_accepts_iff {replid} {offset : Int} :
    (∃ c', m.masterTryPartialResynchronization c replid offset = some c') ↔
      m.MayContinue replid offset := by
  have hid : (!sameId replid m.replid &&
        (!sameId replid m.replid2 || decide (m.secondReplidOffset < offset))) = true ↔
      ¬ (sameId replid m.replid = true ∨
        (sameId replid m.replid2 = true ∧ offset ≤ m.secondReplidOffset)) := by
    rw [not_or, not_and, not_le, Bool.and_eq_true, Bool.or_eq_true, Bool.not_eq_true',
      Bool.not_eq_true', decide_eq_true_eq, Bool.not_eq_true, imp_iff_not_or, Bool.not_eq_true]
  rw [masterTryPartialResynchronization, MayContinue]
  split
  · next h =>
    refine iff_of_false ?_ fun h' => hid.mp h h'.1
    rintro ⟨c', hc'⟩
    cases hc'
  next h =>
  rw [and_iff_right (not_not.mp (mt hid.mpr h))]
  cases hb : m.backlog <;> simp

/-- The bytes that have been written to the stream since `m`. -/
def since (m m₁ : Server) : List Char := m₁.stream.drop m.stream.length

theorem Grown.since (h : m.Grown m₁ p) : m.since m₁ = p := by
  rw [Server.since, h.stream, drop_left]

end Server

/-- The bytes that have been queued on a link since `c`. -/
def Link.since (c c₁ : Link) : List Char := c₁.out.drop c.out.length

/-- The slave, whose link was `c` at `m` and `c₁` at `m₁`, lost it after `r` bytes, and asks at `m₂`
on the connection `k` for the stream from the next byte on: what was queued is the stream, and if
the slave may continue, what it received and what is then queued is the stream. -/
structure Resumed (m m₁ m₂ : Server) (c c₁ : Link) (k : Conn) (replid : Sds) (r : Nat) : Prop where
  queued : c.since c₁ = m.since m₁
  continued : ∀ k', m₂.masterTryPartialResynchronization k.link replid
    (m.masterReplOffset + r + 1) = some k' → (c.since c₁).take r ++ k'.out = m.since m₂

section

variable {m m₁ m₂ : Server} {c c₁ : Link} {k : Conn} {replid : Sds} {r : Nat} {p p' : List Char}

theorem take_eq_append_iff (hr : r ≤ p.length) : p.take r = p ++ p' ↔ r = (p ++ p').length := by
  constructor
  · intro h
    have := congrArg length h
    rw [length_take, Nat.min_eq_left hr] at this
    exact this
  intro h
  rw [length_append] at h
  have hp' : p' = [] := eq_nil_of_length_eq_zero (by omega)
  rw [hp', append_nil, take_of_length_le (by omega)]

theorem continued_iff (hk : k.pending = []) (hgrown : m.Grown m₁ p) (hgrown' : m₁.Grown m₂ p')
    (hq : c.since c₁ = p) (hr : r ≤ p.length)
    (hk' : m₂.masterTryPartialResynchronization k.link replid offset = some k') :
    (c.since c₁).take r ++ k'.out = m.since m₂ ↔ m.masterReplOffset + r = m₂.masterReplOffset := by
  have hout : k'.out = [] := by
    rw [Server.masterTryPartialResynchronization_eq hk']
    exact hk
  have hall := hgrown.trans hgrown'
  rw [hout, append_nil, hq, hall.since, take_eq_append_iff hr, hall.offset]
  omega

end

section

variable {id₀ replid : Sds} {size i r : Nat} {hsize : 0 < size} {offset₀ : Int}
  {es₀ es es' : List Event} {m : Server} {c c₁ : Link} {k : Conn}

/-- **Continuing the stream.** What a slave receives is the stream iff no command since it was
attached came from the slave itself, and when it may continue, nothing is missing. The bytes that it
should receive are in the backlog. -/
theorem resumed_iff (hm : m = (Server.boot id₀ size hsize offset₀).run es₀) (hc : m.Fed i c)
    (hes : ∀ e ∈ es, e ≠ .freeClient i) (hc₁ : (m.run es).link i = some c₁)
    (hr : r ≤ (c.since c₁).length) (hk : k.pending = []) :
    (Resumed m (m.run es) ((m.run es).run es') c c₁ k replid r ↔ (∀ e ∈ es, e.originator ≠ some i) ∧
        (((m.run es).run es').MayContinue replid (m.masterReplOffset + r + 1) →
          m.masterReplOffset + r = ((m.run es).run es').masterReplOffset)) ∧
    ∀ b, ((m.run es).run es').backlog = some b → b.off ≤ m.masterReplOffset + r + 1 →
      m.masterReplOffset + r + 1 ≤ b.off + b.ring.histlen →
      b.bytesFrom (m.masterReplOffset + r + 1) = (m.since ((m.run es).run es')).drop r := by
  have hok : m.Ok := hm ▸ (Server.boot_ok id₀ size hsize offset₀).run es₀
  obtain ⟨c', hc', hout, hgrown⟩ := hc.run hok hes
  obtain rfl : c' = c₁ := Option.some.inj (hc'.1.symm.trans hc₁)
  obtain ⟨p', hgrown'⟩ := Server.grown_run (hok.run es) es'
  have hq : c.since c' = es.flatMap (·.bytesTo i) := by
    rw [Link.since, hout, drop_left]
  have hle : r ≤ (es.flatMap (·.bytes)).length := by
    have := Event.length_flatMap_bytesTo_le i es
    rw [hq] at hr
    omega
  constructor
  · rw [← Event.flatMap_bytesTo_eq_iff i es]
    constructor
    · rintro ⟨hqueued, hcont⟩
      rw [hq, hgrown.since] at hqueued
      refine ⟨hqueued, fun hmay => ?_⟩
      obtain ⟨k', hk'⟩ := Server.masterTryPartialResynchronization_accepts_iff.mpr hmay
      exact (continued_iff hk hgrown hgrown' (hq.trans hqueued) hle hk').mp (hcont k' hk')
    rintro ⟨hqueued, hcont⟩
    refine ⟨by rw [hq, hgrown.since, hqueued], fun k' hk' => ?_⟩
    have hmay := Server.masterTryPartialResynchronization_accepts_iff.mp ⟨k', hk'⟩
    exact (continued_iff hk hgrown hgrown' (hq.trans hqueued) hle hk').mpr (hcont hmay)
  intro b hb hlow hhigh
  have hall := hgrown.trans hgrown'
  have hoffset := hall.offset
  have hlen := congrArg length hall.stream
  rw [length_append] at hlen
  have hpos : ((m.run es).run es').stream.length -
      (((m.run es).run es').masterReplOffset + 1 - (m.masterReplOffset + r + 1)).toNat =
        m.stream.length + r := by
    rw [length_append] at hoffset hlen
    omega
  rw [Server.bytesFrom_eq ((hok.run es).run es') hb hlow hhigh, hpos, ← drop_drop, Server.since]

end

/-! ## What an accepted request queues -/

/-- The bytes of the stream from an offset to `master_repl_offset`. -/
def Server.streamFrom (m : Server) (offset : Int) : List Char :=
  m.stream.drop (m.stream.length - (m.masterReplOffset + 1 - offset).toNat)

variable {m : Server} {replid : Sds} {offset : Int}

theorem Server.out_masterTryPartialResynchronization (hlua : c.flags.lua = false)
    (hfeed : c.flags.underFeed = false)
    (h : m.masterTryPartialResynchronization c replid offset = some c') : c'.out = c.out := by
  unfold Server.masterTryPartialResynchronization Backlog.addReplyReplicationBacklog at h
  split at h
  · cases h
  split at h
  · cases h
  split at h
  · cases h
  cases h
  have hgate := Link.addReply_eq_self (c := { c with
    flags := { c.flags with slave := true }, replstate := .online }) hlua rfl hfeed
  exact (congrArg Link.out (hgate _)).trans rfl

/-- The part of the stream that an accepted request asks for: it is in the backlog, and it is empty
exactly if nothing is missing. -/
theorem Server.streamFrom_of_mayContinue (hm : m.Ok) (h : m.MayContinue replid offset) :
    (∃ b, m.backlog = some b ∧ b.bytesFrom offset = m.streamFrom offset) ∧
      (m.streamFrom offset = [] ↔ offset = m.masterReplOffset + 1) := by
  obtain ⟨-, b, hb, hlow, hhigh⟩ := h
  refine ⟨⟨b, hb, bytesFrom_eq hm hb hlow hhigh⟩, ?_⟩
  obtain ⟨s, hs, hholds, hoff⟩ := hm.backlog b hb
  have hlen := hholds.histlen
  have hle := hs.length_le
  unfold streamFrom
  rw [drop_eq_nil_iff]
  constructor
  · intro h
    omega
  intro h
  omega

/-- **An accepted `PSYNC`.** The bytes that are queued on the output of the new slave are those of
the stream from the requested offset to `master_repl_offset` exactly if there are none: the backlog
has the bytes, but the client is a slave that is not being fed. -/
theorem psync_delivers_iff {id₀ replid : Sds} {size : Nat} {hsize : 0 < size} {offset₀ offset : Int}
    {es : List Event} {m : Server} (hm : m = (Server.boot id₀ size hsize offset₀).run es) {c c' : Link}
    (hlua : c.flags.lua = false) (hfeed : c.flags.underFeed = false)
    (h : m.masterTryPartialResynchronization c replid offset = some c') :
    (c.since c' = m.streamFrom offset ↔ offset = m.masterReplOffset + 1) ∧
      ∃ b, m.backlog = some b ∧ b.bytesFrom offset = m.streamFrom offset := by
  have hok : m.Ok := hm ▸ (Server.boot_ok id₀ size hsize offset₀).run es
  obtain ⟨hbytes, hempty⟩ := Server.streamFrom_of_mayContinue hok
    (Server.masterTryPartialResynchronization_accepts_iff.mp ⟨c', h⟩)
  have hsince : c.since c' = [] := by
    rw [Link.since, Server.out_masterTryPartialResynchronization hlua hfeed h, drop_length]
  refine ⟨?_, hbytes⟩
  rw [hsince, ← hempty]
  exact eq_comm

/-! ## A server with one slave -/

def conn (id : Nat) : Conn := ⟨id, 8, 6381, 0, [], by decide⟩

/-- A server whose slave has done its first synchronisation. -/
def oneSlave : Server :=
  (Server.boot ['a'] 16384 (by decide) 0).run
    [.sync (conn 1) .sync ['b'], .bgsave (some .disk), .bgsaveDone, .putSlaveOnline 1]

/-- The link of that slave, on which `out` has been queued. -/
def link₁ (out : List Char) : Link := ⟨1, 8, 6381, 0, .ofSlave false, .online, 0, out⟩

/-- `uinit k a,b`, from a user. -/
def uinitArgv : List Sds := [['u', 'i', 'n', 'i', 't'], ['k'], ['a', ',', 'b']]

/-- `split a k`, extended by the slave. -/
def splitArgv : List Sds := [['s', 'p', 'l', 'i', 't'], ['a'], ['6', '_', '1'], ['*'], ['k']]

/-- Nothing came from the slave, and nothing was missing when it asked. -/
theorem resumed_iff_silent : Resumed oneSlave (oneSlave.run [.feedSlaves uinitArgv])
      ((oneSlave.run [.feedSlaves uinitArgv]).run [.freeClient 1]) (link₁ [])
      (link₁ (resp uinitArgv)) (conn 2) ['b'] (resp uinitArgv).length := by
  have hc : oneSlave.Fed 1 (link₁ []) := ⟨by decide +kernel, by decide⟩
  have hc1 : (oneSlave.run [.feedSlaves uinitArgv]).link 1 = some (link₁ (resp uinitArgv)) := by
    decide +kernel
  have hr : (resp uinitArgv).length ≤ ((link₁ []).since (link₁ (resp uinitArgv))).length := by
    decide +kernel
  refine (resumed_iff (m := oneSlave) rfl hc (by simp) hc1 hr rfl).1.mpr ⟨?_, fun _ => ?_⟩
  · simp [Event.originator]
  · decide +kernel

/-- The command of the slave is in the stream but is not queued for it. And a slave that received
nothing of another command, and asks for it, is told to continue but nothing is queued. -/
theorem stream_not_resumed : (oneSlave.link 1 = some (link₁ []) ∧
      (oneSlave.run [.feedExSlave 1 splitArgv]).link 1 = some ((link₁ []).setUnderFeed true) ∧
      oneSlave.since (oneSlave.run [.feedExSlave 1 splitArgv]) = resp splitArgv ∧
      (link₁ []).since ((link₁ []).setUnderFeed true) = []) ∧
    ((oneSlave.run [.feedSlaves uinitArgv]).link 1 = some (link₁ (resp uinitArgv)) ∧
      ((oneSlave.run [.feedSlaves uinitArgv]).run
        [.freeClient 1]).masterTryPartialResynchronization (conn 2).link ['b'] 1 =
          some { (conn 2).link with flags := .ofSlave false, replstate := .online } ∧
      oneSlave.since ((oneSlave.run [.feedSlaves uinitArgv]).run [.freeClient 1]) = resp uinitArgv ∧
      oneSlave.masterReplOffset = 0) := by
  refine ⟨⟨?_, ?_, ?_, ?_⟩, ?_, ?_, ?_, ?_⟩ <;> decide +kernel

/-- A slave that has received everything asks for the next byte. -/
theorem psync_delivers_iff_up_to_date :
    (conn 2).link.since { (conn 2).link with flags := .ofSlave false, replstate := .online } =
      (oneSlave.run [.feedSlaves uinitArgv]).streamFrom 32 := by
  have hboot : oneSlave.run [.feedSlaves uinitArgv] =
      (Server.boot ['a'] 16384 (by decide) 0).run [.sync (conn 1) .sync ['b'],
        .bgsave (some .disk), .bgsaveDone, .putSlaveOnline 1, .feedSlaves uinitArgv] := rfl
  have haccept : (oneSlave.run [.feedSlaves uinitArgv]).masterTryPartialResynchronization
      (conn 2).link ['b'] 32 =
        some { (conn 2).link with flags := .ofSlave false, replstate := .online } := by
    decide +kernel
  refine (psync_delivers_iff hboot rfl rfl haccept).1.mpr ?_
  decide +kernel

/-- A slave that has received nothing asks for the first byte: the request is accepted, and nothing
of the command is queued. -/
theorem psync_delivers_nothing :
    (oneSlave.run [.feedSlaves uinitArgv]).masterTryPartialResynchronization (conn 2).link ['b'] 1 =
        some { (conn 2).link with flags := .ofSlave false, replstate := .online } ∧
      (conn 2).link.since { (conn 2).link with flags := .ofSlave false, replstate := .online } = [] ∧
      (oneSlave.run [.feedSlaves uinitArgv]).streamFrom 1 = resp uinitArgv := by
  refine ⟨?_, ?_, ?_⟩ <;> decide +kernel

end UfsRedis.Repl
