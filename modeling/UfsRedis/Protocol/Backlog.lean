import UfsRedis.Protocol.Replication

/-!
# The backlog is a window of the stream

The backlog of `src/replication.c` is created empty, fed with pieces of any length, and emptied when
its size changes.
-/

namespace UfsRedis.Repl

open Lib List

/-- What changes a backlog. -/
inductive BacklogOp where
  /-- `feedReplicationBacklog`. -/
  | feed (p : List Char)
  /-- `resizeReplicationBacklog`. -/
  | resize (newsize : Int)

/-- `createReplicationBacklog` at a server. -/
def Server.createBacklog (m : Server) : Except Fault Server :=
  if m.backlog.isSome then .error .assertFailed
  else .ok { m with
    backlog := some (createReplicationBacklog m.backlogSize m.size_pos m.masterReplOffset)
    has_backlog := fun _ => rfl }

/-- One call. A size below `CONFIG_REPL_BACKLOG_MIN_SIZE`, also a negative one, is that minimum. -/
def Server.backlogStep (m : Server) : BacklogOp → Server
  | .feed p => m.feedReplicationBacklog p
  | .resize newsize => m.resizeReplicationBacklog newsize.toNat

def Server.backlogRun (m : Server) (ops : List BacklogOp) : Server := ops.foldl Server.backlogStep m

/-- The size of a backlog, and the bytes that it has been fed with since it was empty. -/
def fedStep (size : Nat) (s : List Char) : BacklogOp → Nat × List Char
  | .feed p => (size, s ++ p)
  | .resize newsize => if size = max newsize.toNat 16384 then (size, s) else (max newsize.toNat 16384, [])

def fed (size : Nat) (ops : List BacklogOp) : Nat × List Char :=
  ops.foldl (fun x op => fedStep x.1 x.2 op) (size, [])

/-- What a backlog of a certain size shows of the bytes `s`. -/
structure Backlog.Window (b : Backlog) (masterReplOffset : Int) (size : Nat) (s : List Char) :
    Prop where
  size_eq : b.ring.buf.length = size
  histlen : b.ring.histlen = min s.length size
  idx_lt : b.ring.idx < size
  /-- The last `histlen` cells before `idx`, read circularly. -/
  bytes : (List.range b.ring.histlen).map
      (fun k => b.ring.buf[(b.ring.idx + (size - b.ring.histlen) + k) % size]?) =
    (s.drop (s.length - b.ring.histlen)).map some
  off : b.off = masterReplOffset - b.ring.histlen + 1
  /-- The byte with the offset `masterReplOffset` is the last one of `s`. -/
  reply : ∀ offset, b.off ≤ offset → offset ≤ b.off + b.ring.histlen →
    b.bytesFrom offset = s.drop (s.length - (masterReplOffset + 1 - offset).toNat)

section

variable {b : Backlog} {s : List Char} {offset : Int}

theorem cells_eq_drop (h : b.ring.Holds s) : (List.range b.ring.histlen).map
        (fun k => b.ring.buf[(b.ring.idx + (b.ring.size - b.ring.histlen) + k) % b.ring.size]?) =
      (s.drop (s.length - b.ring.histlen)).map some := by
  have hlen := h.histlen
  refine ext_getElem (by simp; omega) fun k hk hk' => ?_
  have hlt : k < b.ring.histlen := by simpa using hk
  have hpos : s.length - b.ring.histlen + k < s.length := by omega
  have hcell := h.cell _ hpos (by omega)
  rw [getElem_map, getElem_range, ← Nat.mod_add_mod, h.start, Nat.mod_add_mod, hcell,
    getElem?_eq_getElem hpos, getElem_map, getElem_drop]

theorem Backlog.window_of_holds (h : b.ring.Holds s) (hoff : b.off = offset - b.ring.histlen + 1) :
    b.Window offset b.ring.size s := by
  refine ⟨rfl, h.histlen, b.ring.idx_lt_size, cells_eq_drop h, hoff, fun o hlow hhigh => ?_⟩
  have hlen := h.histlen
  rw [Backlog.bytesFrom]
  split
  · next h0 => rw [drop_eq_nil_of_le (by omega)]
  have hpos : s.length - b.ring.histlen + (o - b.off).toNat =
      s.length - (offset + 1 - o).toNat := by omega
  rw [h.read (by omega), hpos]

end

/-- The server has a backlog of its size that holds `s`. -/
def Server.BacklogHolds (m : Server) (size : Nat) (s : List Char) : Prop :=
  m.backlogSize = size ∧ ∃ b, m.backlog = some b ∧ b.ring.size = size ∧ b.ring.Holds s ∧
    b.off = m.masterReplOffset - b.ring.histlen + 1

variable {m m₀ : Server} {size : Nat} {s : List Char}

theorem createReplicationBacklog_holds (size : Nat) (h : 0 < size) (offset : Int) :
    (createReplicationBacklog size h offset).ring.size = size ∧
      (createReplicationBacklog size h offset).ring.Holds [] ∧
      (createReplicationBacklog size h offset).off =
        offset - (createReplicationBacklog size h offset).ring.histlen + 1 := by
  refine ⟨length_replicate, CircularBuffer.empty_holds _ _, ?_⟩
  change offset + 1 = offset - (0 : Nat) + 1
  omega

theorem Server.createBacklog_holds (h : m.createBacklog = .ok m₀) :
    m₀.BacklogHolds m.backlogSize [] := by
  rw [Server.createBacklog] at h
  split at h
  · cases h
  cases h
  exact ⟨rfl, _, rfl, createReplicationBacklog_holds _ _ _⟩

theorem Server.BacklogHolds.step (h : m.BacklogHolds size s) (op : BacklogOp) :
    (m.backlogStep op).BacklogHolds (fedStep size s op).1 (fedStep size s op).2 := by
  obtain ⟨hsize, b, hb, hring, hholds, hoff⟩ := h
  cases op with
  | feed p =>
    rw [Server.backlogStep, Server.feedReplicationBacklog, hb]
    refine ⟨hsize, _, rfl, ?_, hholds.write p, rfl⟩
    rw [← hring]
    exact CircularBuffer.size_write _ _
  | resize newsize =>
    rw [Server.backlogStep, Server.resizeReplicationBacklog, fedStep, hsize]
    split
    · exact ⟨hsize, b, hb, hring, hholds, hoff⟩
    refine ⟨rfl, _, ?_, createReplicationBacklog_holds _ (by omega) _⟩
    simp [hb]

theorem Server.BacklogHolds.run (h : m.BacklogHolds size s) (ops : List BacklogOp) :
    (m.backlogRun ops).BacklogHolds (ops.foldl (fun x op => fedStep x.1 x.2 op) (size, s)).1
      (ops.foldl (fun x op => fedStep x.1 x.2 op) (size, s)).2 := by
  induction ops generalizing m size s with
  | nil => exact h
  | cons op ops ih => exact ih (h.step op)

/-- **The backlog is a window of the stream**, for every size and every sequence of feeds and
resizes since it was created. -/
theorem backlog_window (h : m.createBacklog = .ok m₀) (ops : List BacklogOp) :
    ∃ b, (m₀.backlogRun ops).backlog = some b ∧
      (m₀.backlogRun ops).backlogSize = (fed m.backlogSize ops).1 ∧
      b.Window (m₀.backlogRun ops).masterReplOffset (fed m.backlogSize ops).1
        (fed m.backlogSize ops).2 := by
  obtain ⟨hsize, b, hb, hring, hholds, hoff⟩ := (Server.createBacklog_holds h).run ops
  refine ⟨b, hb, hsize, ?_⟩
  have hwindow := Backlog.window_of_holds hholds hoff
  rwa [hring] at hwindow

/-- A backlog of three bytes that is fed with five: the last three are in it. -/
theorem backlog_window_overwritten : ∃ m₀, (Server.boot [] 3 (by decide) 10).createBacklog = .ok m₀ ∧
    ∃ b, (m₀.backlogRun [.feed ['a', 'b'], .feed ['c', 'd', 'e']]).backlog = some b ∧
      b.ring.histlen = 3 ∧
      b.Window (m₀.backlogRun [.feed ['a', 'b'], .feed ['c', 'd', 'e']]).masterReplOffset 3
        ['a', 'b', 'c', 'd', 'e'] := by
  have hcreate : ∃ m₀, (Server.boot [] 3 (by decide) 10).createBacklog = .ok m₀ := ⟨_, rfl⟩
  obtain ⟨m₀, hm0⟩ := hcreate
  obtain ⟨b, hb, -, hwindow⟩ := backlog_window hm0 [.feed ['a', 'b'], .feed ['c', 'd', 'e']]
  exact ⟨m₀, hm0, b, hb, hwindow.histlen, hwindow⟩

end UfsRedis.Repl
