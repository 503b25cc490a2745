import Mathlib.Data.Set.Insert
import UfsRedis.Keyspace.Blocking
import UfsRedis.Lib.Fold

/-!
# Serving blocked clients

What `handleClientsBlockedOnLists` is for: `Waiting` has the elements of the lists, the clients that
wait for each key, and what each client was sent. A `Service` gives an element from the end of a
list to the first client that waits for it, or moves it to the list that the client names, or
refuses the client and leaves the list.

The function is a sequence of services (`handleClientsBlockedOnLists_spec`), and after it no client
waits for a key that holds a list, if every list with blocked clients was signalled
(`Server.Ok.signalled`).
-/

namespace UfsRedis.Blocking

open List Option

/-! ## Services -/

/-- The lists and the clients that wait for their elements. -/
@[ext] structure Waiting where
  contents : DbKey → List Sds
  /-- The key holds an object of another type. -/
  other : DbKey → Bool
  queue : DbKey → List Nat
  target : Nat → Option Sds
  head : Nat → Bool
  inbox : Nat → List Reply

namespace Waiting

def setList (a : Waiting) (p : DbKey) (l : List Sds) : Waiting :=
  { a with contents := fun q => if q = p then l else a.contents q }

def release (a : Waiting) (c : Nat) (r : Reply) : Waiting :=
  { a with
    queue := fun q => (a.queue q).erase c
    target := fun j => if j = c then none else a.target j
    inbox := fun j => if j = c then a.inbox j ++ [r] else a.inbox j }

/-- The first client that waits for a list is served. -/
inductive Service : Waiting → Waiting → Prop where
  | pop {a : Waiting} {p : DbKey} {c : Nat} {rest : List Nat} {v : Sds} {l : List Sds}
      (first : a.queue p = c :: rest)
      (popped : listTypePop (a.contents p) (a.head c) = some (v, l))
      (target : a.target c = none) : Service a ((a.setList p l).release c (.pair p.2 v))
  | move {a : Waiting} {p : DbKey} {c : Nat} {rest : List Nat} {v : Sds} {l : List Sds} {dst : Sds}
      (first : a.queue p = c :: rest)
      (popped : listTypePop (a.contents p) (a.head c) = some (v, l))
      (target : a.target c = some dst) (list : a.other (p.1, dst) = false) :
      Service a (((a.setList p l).setList (p.1, dst)
        (v :: (a.setList p l).contents (p.1, dst))).release c (.bulk v))
  | refuse {a : Waiting} {p : DbKey} {c : Nat} {rest : List Nat} {v : Sds} {l : List Sds} {dst : Sds}
      (first : a.queue p = c :: rest)
      (popped : listTypePop (a.contents p) (a.head c) = some (v, l))
      (target : a.target c = some dst) (other : a.other (p.1, dst) = true) :
      Service a (a.release c .wrongtypeerr)

end Waiting

theorem listTypePush_of_pop {l l' v head}
    (h : listTypePop l head = some (v, l')) : listTypePush l' v head = l := by
  cases head with
  | true =>
    obtain _ | ⟨x, l⟩ := l
    · cases h
    cases h
    rfl
  | false =>
    rcases eq_nil_or_concat l with rfl | ⟨l, x, rfl⟩
    · cases h
    rw [concat_eq_append] at h ⊢
    simp only [listTypePop, getLast?_append, getLast?_singleton, some_or,
      map_some, dropLast_concat, some.injEq, Prod.mk.injEq] at h
    obtain ⟨rfl, rfl⟩ := h
    rfl

theorem listTypePop_eq_none {l head} : listTypePop l head = none ↔ l = [] := by
  cases head <;> simp [listTypePop]

/-- A key with this value holds an object of another type. -/
def isOther : Option Value → Bool
  | some (.other _) => true
  | _ => false

theorem isOther_eq_true_iff : isOther v = true ↔ ∃ x, v = some (.other x) := by
  rcases v with - | - | x <;> simp [isOther]

/-! ## What the parts of a command change -/

namespace Server

variable (s : Server) (p q : DbKey) (i : Nat)

/-- The server as a `Waiting`. -/
def waiting : Waiting where
  contents := s.contents
  other p := isOther (s.value p)
  queue := s.blocked
  target i := (s.client i).target
  head i := (s.client i).lastBlpop
  inbox i := (s.client i).reply

section

variable (v : Option Value)
include v

@[simp] theorem client_setDict : (s.setDict p v).client = s.client := rfl

@[simp] theorem blocked_setDict : (s.setDict p v).blocked = s.blocked := by
  funext q
  unfold blocked setDict modifyDb
  dsimp only
  split <;> rfl

@[simp] theorem ready_setDict : (s.setDict p v).ready = s.ready := by
  funext q
  unfold ready setDict modifyDb
  dsimp only
  split <;> rfl

@[simp] theorem value_setDict :
    (s.setDict p v).value q = if q = p then v else s.value q := by
  exact ite_dbKey (fun db : RedisDb => db.dict q.2) rfl

end

@[simp] theorem value_setReady (b : Bool) : (s.setReady p b).value = s.value := by
  funext q
  unfold value setReady modifyDb
  dsimp only
  split <;> rfl

@[simp] theorem blocked_setReady (b : Bool) : (s.setReady p b).blocked = s.blocked := by
  funext q
  unfold blocked setReady modifyDb
  dsimp only
  split <;> rfl

@[simp] theorem ready_setReady (b : Bool) :
    (s.setReady p b).ready q = if q = p then b else s.ready q := by
  exact ite_dbKey (fun db : RedisDb => db.readyKeys q.2) rfl

@[simp] theorem value_setBlocked (l : List Nat) : (s.setBlocked p l).value = s.value := by
  funext q
  unfold value setBlocked modifyDb
  dsimp only
  split <;> rfl

@[simp] theorem ready_setBlocked (l : List Nat) : (s.setBlocked p l).ready = s.ready := by
  funext q
  unfold ready setBlocked modifyDb
  dsimp only
  split <;> rfl

@[simp] theorem blocked_setBlocked (l : List Nat) :
    (s.setBlocked p l).blocked q = if q = p then l else s.blocked q := by
  refine ite_dbKey (fun db : RedisDb => (db.blockingKeys.lookup q.2).getD []) ?_
  by_cases h : q.2 = p.2
  · rw [if_pos h, h]
    split
    · next hl => rw [AList.lookup_erase, hl, getD_none]
    · rw [AList.lookup_insert, getD_some]
  rw [if_neg h]
  split
  · rw [AList.lookup_erase_ne h]
  · rw [AList.lookup_insert_ne h]

theorem client_modifyClient (f : Client → Client) (j : Nat) :
    (s.modifyClient i f).client j = if j = i then f (s.client j) else s.client j := rfl

theorem blocked_of_lookup_eq_none (h : (s.db p.1).blockingKeys.lookup p.2 = none) :
    s.blocked p = [] := by
  unfold blocked
  rw [h, getD_none]

end Server

/-! ## The tables of blocked clients -/

/-- A client after `unblockClient`. -/
def Client.free (c : Client) : Client := { c with blocked := false, keys := [], target := none }

/-- The keys of the clients and the lists of the databases agree, and `bpop_blocked_clients` counts
the blocked clients. -/
structure Server.Tables (s : Server) : Prop where
  mem_blocked : ∀ i p, i ∈ s.blocked p ↔ (s.client i).db = p.1 ∧ p.2 ∈ (s.client i).keys
  nodup_blocked : ∀ p, (s.blocked p).Nodup
  nodup_keys : ∀ i, (s.client i).keys.Nodup
  blocked_iff : ∀ i, (s.client i).blocked = true ↔ (s.client i).keys ≠ []
  counted : ∃ bs : List Nat, bs.Nodup ∧ bs.length = s.bpopBlockedClients ∧
    ∀ i, i ∈ bs ↔ (s.client i).blocked = true

namespace Server

variable {s s' : Server} {i : Nat} {p : DbKey}

theorem Tables.congr (h : s.Tables) (hblocked : s'.blocked = s.blocked)
    (hcount : s'.bpopBlockedClients = s.bpopBlockedClients)
    (hclient : ∀ j, (s'.client j).db = (s.client j).db ∧ (s'.client j).keys = (s.client j).keys ∧
      (s'.client j).blocked = (s.client j).blocked) : s'.Tables where
  mem_blocked j p := by
    rw [hblocked, (hclient j).1, (hclient j).2.1]
    exact h.mem_blocked j p
  nodup_blocked p := by
    rw [hblocked]
    exact h.nodup_blocked p
  nodup_keys j := by
    rw [(hclient j).2.1]
    exact h.nodup_keys j
  blocked_iff j := by
    rw [(hclient j).2.1, (hclient j).2.2]
    exact h.blocked_iff j
  counted := by
    obtain ⟨bs, hnodup, hlen, hmem⟩ := h.counted
    refine ⟨bs, hnodup, hcount ▸ hlen, fun j => ?_⟩
    rw [(hclient j).2.2]
    exact hmem j

/-- The client `i` has been taken from the lists of `keys`, and nothing else has changed. -/
structure Unlisted (s s' : Server) (i : Nat) (keys : List Sds) : Prop where
  value : s'.value = s.value
  ready : s'.ready = s.ready
  readyKeys : s'.readyKeys = s.readyKeys
  client : s'.client = s.client
  count : s'.bpopBlockedClients = s.bpopBlockedClients
  blocked : ∀ q, s'.blocked q =
    if q.1 = (s.client i).db ∧ q.2 ∈ keys then (s.blocked q).erase i else s.blocked q

variable {key : Sds} {keys : List Sds}

theorem unblockKey_spec (hi : i ∈ s.blocked ((s.client i).db, key)) :
    ∃ s', unblockKey i s key = .ok s' ∧ Unlisted s s' i [key] := by
  obtain ⟨l, hlookup, hl⟩ : ∃ l, (s.db (s.client i).db).blockingKeys.lookup key = some l ∧
      s.blocked ((s.client i).db, key) = l := by
    unfold blocked at hi ⊢
    rcases hlookup : (s.db (s.client i).db).blockingKeys.lookup key with _ | l
    · rw [hlookup] at hi
      cases hi
    exact ⟨l, rfl, by rw [getD_some]⟩
  refine ⟨s.setBlocked ((s.client i).db, key) (l.erase i), ?_, value_setBlocked .., ready_setBlocked ..,
    rfl, rfl, rfl, fun q => ?_⟩
  · unfold unblockKey
    dsimp only
    rw [hlookup]
    exact if_pos (hl ▸ hi)
  rw [blocked_setBlocked, ← hl]
  by_cases hq : q = ((s.client i).db, key)
  · subst hq
    rw [if_pos rfl, if_pos ⟨rfl, mem_singleton.mpr rfl⟩]
  · rw [if_neg hq, if_neg fun h => hq (Prod.ext h.1 (mem_singleton.mp h.2))]

theorem Unlisted.cons {s₁} (hkey : key ∉ keys)
    (h₁ : Unlisted s s₁ i [key]) (h : Unlisted s₁ s' i keys) : Unlisted s s' i (key :: keys) where
  value := h.value.trans h₁.value
  ready := h.ready.trans h₁.ready
  readyKeys := h.readyKeys.trans h₁.readyKeys
  client := h.client.trans h₁.client
  count := h.count.trans h₁.count
  blocked q := by
    rw [h.blocked, h₁.blocked, h₁.client]
    by_cases hq : q.2 = key
    · simp [hq, hkey]
    · simp [hq]

theorem foldlM_unblockKey (hnodup : keys.Nodup)
    (hmem : ∀ key ∈ keys, i ∈ s.blocked ((s.client i).db, key)) :
    ∃ s', keys.foldlM (unblockKey i) s = .ok s' ∧ Unlisted s s' i keys := by
  induction keys generalizing s with
  | nil => exact ⟨s, rfl, rfl, rfl, rfl, rfl, rfl, by simp⟩
  | cons key keys ih =>
    obtain ⟨hkey, hnodup⟩ := nodup_cons.mp hnodup
    obtain ⟨s₁, hs1, h1⟩ := unblockKey_spec (hmem key mem_cons_self)
    have hmem1 : ∀ key' ∈ keys, i ∈ s₁.blocked ((s₁.client i).db, key') := by
      intro key' hkey'
      have hne : key' ≠ key := fun h => hkey (h ▸ hkey')
      rw [h1.client, h1.blocked, if_neg fun h => hne (mem_singleton.mp h.2)]
      exact hmem key' (mem_cons_of_mem _ hkey')
    obtain ⟨s', hs', h'⟩ := ih hnodup hmem1
    refine ⟨s', ?_, h1.cons hkey h'⟩
    rw [foldlM_cons, hs1]
    exact hs'

theorem Tables.free (h : s.Tables) (hi : (s.client i).blocked = true)
    (hblocked : ∀ q, s'.blocked q = (s.blocked q).erase i)
    (hclient : ∀ j, s'.client j = if j = i then (s.client j).free else s.client j)
    (hcount : s'.bpopBlockedClients = s.bpopBlockedClients - 1) :
    s'.Tables ∧ s'.bpopBlockedClients + 1 = s.bpopBlockedClients := by
  obtain ⟨bs, hnodup, hlen, hmem⟩ := h.counted
  have hibs : i ∈ bs := (hmem i).mpr hi
  have hpos : 0 < bs.length := length_pos_of_mem hibs
  refine ⟨⟨fun j q => ?_, fun q => ?_, fun j => ?_, fun j => ?_,
    bs.erase i, hnodup.erase i, ?_, fun j => ?_⟩, by omega⟩
  · rw [hblocked, (h.nodup_blocked q).mem_erase_iff, hclient, h.mem_blocked]
    by_cases hj : j = i
    · simp [hj, Client.free]
    · simp [hj]
  · rw [hblocked]
    exact (h.nodup_blocked q).erase i
  · rw [hclient]
    split
    · exact nodup_nil
    · exact h.nodup_keys j
  · rw [hclient]
    split
    · simp [Client.free]
    · exact h.blocked_iff j
  · rw [length_erase_of_mem hibs]
    omega
  rw [hnodup.mem_erase_iff, hmem, hclient]
  by_cases hj : j = i
  · simp [hj, Client.free]
  · simp [hj]

/-- `unblockClient` returns for a blocked client, and takes it from all lists. -/
theorem Tables.unblockClient (h : s.Tables) (hi : (s.client i).blocked = true) :
    ∃ s', s.unblockClient i = .ok s' ∧ s'.Tables ∧ s'.value = s.value ∧ s'.ready = s.ready ∧
      s'.readyKeys = s.readyKeys ∧ s'.bpopBlockedClients + 1 = s.bpopBlockedClients ∧
      (∀ q, s'.blocked q = (s.blocked q).erase i) ∧
      ∀ j, s'.client j = if j = i then (s.client j).free else s.client j := by
  have hkeys : (s.client i).keys ≠ [] := (h.blocked_iff i).mp hi
  obtain ⟨s₁, hs1, h1⟩ :=
    foldlM_unblockKey (h.nodup_keys i) fun key hkey => (h.mem_blocked i _).mpr ⟨rfl, hkey⟩
  have herase : ∀ q, s₁.blocked q = (s.blocked q).erase i := by
    intro q
    rw [h1.blocked]
    split
    · rfl
    next hq =>
    have hnot : i ∉ s.blocked q := fun hm => hq (((h.mem_blocked i q).mp hm).imp_left Eq.symm)
    exact (erase_of_not_mem hnot).symm
  let s' : Server := {
    (s₁.modifyClient i fun c => { c with keys := [], target := none }).modifyClient i
      fun c => { c with blocked := false } with
    bpopBlockedClients := s₁.bpopBlockedClients - 1 }
  have hclient : ∀ j, s'.client j = if j = i then (s.client j).free else s.client j := by
    intro j
    rw [← h1.client]
    by_cases hj : j = i
    · simp [s', modifyClient, hj, Client.free]
    · simp [s', modifyClient, hj]
  have hcount : s'.bpopBlockedClients = s.bpopBlockedClients - 1 := by rw [← h1.count]
  obtain ⟨htables, hless⟩ :
      s'.Tables ∧ s'.bpopBlockedClients + 1 = s.bpopBlockedClients :=
    h.free hi herase hclient hcount
  refine ⟨s', ?_, htables, h1.value, h1.ready, h1.readyKeys, hless, herase, hclient⟩
  unfold Server.unblockClient Server.unblockClientWaitingData
  rw [hi, if_neg hkeys, hs1]
  rfl

end Server

/-! ## Signalled keys -/

/-- The tables are right, a key in `db->ready_keys` is in `server.ready_keys` or in the part `w` of
it that is still to be served, and so is every list with blocked clients, but for the keys in
`u`. -/
structure Server.Ok (u : Set DbKey) (w : List DbKey) (s : Server) : Prop extends s.Tables where
  flagged : ∀ q, s.ready q = true → q ∈ w ∨ q ∈ s.readyKeys
  signalled : ∀ q, q ∉ u → s.blocked q ≠ [] → ∀ l, s.value q = some (.list l) →
    q ∈ w ∨ q ∈ s.readyKeys

/-- No key but those in `u` holds an empty list. -/
def Server.NoEmpty (u : Set DbKey) (s : Server) : Prop := ∀ q, q ∉ u → s.value q ≠ some (.list [])

namespace Server

variable {s s' : Server} {u u' : Set DbKey} {w : List DbKey} {i : Nat} {p q : DbKey}

theorem Ok.mono (h : s.Ok u w) (hu : u ⊆ u') : s.Ok u' w :=
  { h with signalled := fun q hq => h.signalled q fun hq' => hq (hu hq') }

theorem Ok.modifyClient (h : s.Ok u w)
    (hf : ∀ c, (f c).db = c.db ∧ (f c).keys = c.keys ∧ (f c).blocked = c.blocked) :
    (s.modifyClient i f).Ok u w where
  toTables := by
    apply h.toTables.congr
    · rfl
    · rfl
    intro j
    rw [client_modifyClient]
    split
    · exact hf _
    · exact ⟨rfl, rfl, rfl⟩
  flagged := h.flagged
  signalled := h.signalled

theorem Ok.addReply (h : s.Ok u w) (r : Reply) : (s.addReply i r).Ok u w :=
  h.modifyClient fun _ => ⟨rfl, rfl, rfl⟩

theorem Ok.setDict (h : s.Ok u w) (hp : p ∈ u) (v : Option Value) : (s.setDict p v).Ok u w where
  toTables := h.toTables.congr (blocked_setDict s p v) rfl fun _ => ⟨rfl, rfl, rfl⟩
  flagged q hq := by
    rw [ready_setDict] at hq
    exact h.flagged q hq
  signalled q hq hb l hl := by
    rw [blocked_setDict] at hb
    have hqp : q ≠ p := fun e => hq (e ▸ hp)
    rw [value_setDict, if_neg hqp] at hl
    exact h.signalled q hq hb l hl

/-- A key that is signalled, or has no blocked client, or is no list, need not be in `u`. -/
theorem Ok.drop (h : s.Ok (insert p u) w)
    (hp : p ∉ u → s.blocked p ≠ [] → ∀ l, s.value p = some (.list l) → p ∈ w ∨ p ∈ s.readyKeys) :
    s.Ok u w :=
  { h with
    signalled := fun q hq hb l hl => by
      by_cases hqp : q = p
      · subst hqp
        exact hp hq hb l hl
      · exact h.signalled q (by simp [hqp, hq]) hb l hl }

@[simp] theorem value_signalListAsReady (s : Server) (p : DbKey) :
    (s.signalListAsReady p).value = s.value := by
  unfold signalListAsReady
  split
  · rfl
  split
  · rfl
  · exact value_setReady s p true

@[simp] theorem blocked_signalListAsReady (s : Server) (p : DbKey) :
    (s.signalListAsReady p).blocked = s.blocked := by
  unfold signalListAsReady
  split
  · rfl
  split
  · rfl
  · exact blocked_setReady s p true

@[simp] theorem client_signalListAsReady (s : Server) (p : DbKey) :
    (s.signalListAsReady p).client = s.client := by
  unfold signalListAsReady
  split
  · rfl
  · split <;> rfl

@[simp] theorem bpopBlockedClients_signalListAsReady (s : Server) (p : DbKey) :
    (s.signalListAsReady p).bpopBlockedClients = s.bpopBlockedClients := by
  unfold signalListAsReady
  split
  · rfl
  · split <;> rfl

theorem mem_readyKeys_signalListAsReady (s : Server) (p : DbKey) (hq : q ∈ s.readyKeys) :
    q ∈ (s.signalListAsReady p).readyKeys := by
  unfold signalListAsReady
  split
  · exact hq
  split
  · exact hq
  · exact mem_append_left _ hq

theorem Ok.signalListAsReady (h : s.Ok u w) (p : DbKey) : (s.signalListAsReady p).Ok u w ∧
      (s.blocked p ≠ [] → p ∈ w ∨ p ∈ (s.signalListAsReady p).readyKeys) := by
  have hmem := fun q => mem_readyKeys_signalListAsReady s p (q := q)
  have hok : (∀ q, (s.signalListAsReady p).ready q = true →
      q ∈ w ∨ q ∈ (s.signalListAsReady p).readyKeys) → (s.signalListAsReady p).Ok u w := by
    intro hflagged
    refine ⟨h.toTables.congr (blocked_signalListAsReady s p)
      (bpopBlockedClients_signalListAsReady s p) fun j => ?_, hflagged, fun q hq hb l hl => ?_⟩
    · rw [client_signalListAsReady]
      exact ⟨rfl, rfl, rfl⟩
    rw [blocked_signalListAsReady] at hb
    rw [value_signalListAsReady] at hl
    exact (h.signalled q hq hb l hl).imp_right (hmem q)
  by_cases hnone : (s.db p.1).blockingKeys.lookup p.2 = none
  · have heq : s.signalListAsReady p = s := if_pos hnone
    refine ⟨heq.symm ▸ h, fun hb => absurd (s.blocked_of_lookup_eq_none p hnone) hb⟩
  by_cases hready : s.ready p = true
  · have heq : s.signalListAsReady p = s := (if_neg hnone).trans (if_pos hready)
    rw [heq]
    exact ⟨h, fun _ => h.flagged p hready⟩
  have heq : s.signalListAsReady p = { s.setReady p true with readyKeys := s.readyKeys ++ [p] } :=
    (if_neg hnone).trans (if_neg hready)
  have hp : p ∈ (s.signalListAsReady p).readyKeys := by
    rw [heq]
    exact mem_append_right _ (mem_singleton.mpr rfl)
  refine ⟨hok fun q hq => ?_, fun _ => .inr hp⟩
  rw [heq] at hq
  have hq : (s.setReady p true).ready q = true := hq
  rw [ready_setReady] at hq
  by_cases hqp : q = p
  · exact .inr (hqp ▸ hp)
  rw [if_neg hqp] at hq
  exact (h.flagged q hq).imp_right (hmem q)

/-! ## One service -/

theorem contents_of_value (h : s.value p = some (.list l)) : s.contents p = l := by
  unfold contents
  rw [h]

theorem contents_congr (h : s'.value p = s.value p) : s'.contents p = s.contents p := by
  unfold contents
  rw [h]

/-- `rpoplpushHandlePush` puts the element first in the list, which it creates and signals if it is
missing. -/
theorem Ok.rpoplpushHandlePush (h : s.Ok u w) (v : Sds) (hq : ∀ v', s.value q ≠ some (.other v')) :
    ∃ s', s.rpoplpushHandlePush i q v = .ok s' ∧ s'.Ok u w ∧ s'.blocked = s.blocked ∧
      s'.bpopBlockedClients = s.bpopBlockedClients ∧
      (∀ r, s'.value r = if r = q then some (.list (v :: s.contents q)) else s.value r) ∧
      s'.client = (s.addReply i (.bulk v)).client := by
  have hqu : q ∈ insert q u := Set.mem_insert q u
  have h' : s.Ok (insert q u) w := h.mono (Set.subset_insert q u)
  unfold Server.rpoplpushHandlePush
  rcases hvalue : s.value q with _ | val
  · have hadd : s.dbAdd q (.list []) =
        .ok ((s.setDict q (some (.list []))).signalListAsReady q) := by
      unfold dbAdd
      rw [hvalue]
      rfl
    obtain ⟨h1, hsignalled⟩ := (h'.setDict hqu (some (.list []))).signalListAsReady q
    have hempty : s.contents q = [] := by
      unfold contents
      rw [hvalue]
    rw [isNone_none, if_pos rfl, hadd]
    refine ⟨_, rfl, Ok.addReply (Ok.drop (h1.setDict hqu _) fun _ hb _ _ => ?_) _, ?_, ?_, fun r => ?_,
      ?_⟩
    · rw [blocked_setDict, blocked_signalListAsReady] at hb
      exact hsignalled hb
    · show ((((s.setDict q _).signalListAsReady q).setDict q _)).blocked = s.blocked
      rw [blocked_setDict, blocked_signalListAsReady, blocked_setDict]
    · show ((s.setDict q _).signalListAsReady q).bpopBlockedClients = s.bpopBlockedClients
      rw [bpopBlockedClients_signalListAsReady]
      rfl
    · show ((((s.setDict q _).signalListAsReady q).setDict q _)).value r = _
      rw [value_setDict, value_signalListAsReady, value_setDict, hempty]
      by_cases hr : r = q
      · rw [if_pos hr, if_pos hr]
        congr 2
        unfold contents
        rw [value_signalListAsReady, value_setDict, if_pos rfl]
        rfl
      · rw [if_neg hr, if_neg hr, if_neg hr]
    funext j
    show (if j = i then _ else _) = (if j = i then _ else _)
    rw [client_setDict, client_signalListAsReady, client_setDict]
  cases val with
  | other v' => exact absurd hvalue (hq v')
  | list l =>
    rw [isNone_some, if_neg Bool.false_ne_true]
    refine ⟨_, rfl, Ok.addReply (Ok.drop (h'.setDict hqu _) fun hqu hb _ _ => ?_) _, ?_, rfl,
      fun r => ?_, rfl⟩
    · rw [blocked_setDict] at hb
      exact h.signalled q hqu hb l hvalue
    · exact blocked_setDict s q _
    · exact value_setDict s q r _

variable {r : Reply} {n : Nat}

/-- A client that is released with a reply, in a state that has the lists of `a`. -/
theorem waiting_eq_release {a : Waiting} {c : Nat}
    (hcontents : s'.waiting.contents = a.contents) (hother : s'.waiting.other = a.other)
    (hqueue : ∀ q, s'.blocked q = (a.queue q).erase c) (htarget : a.target = s.waiting.target)
    (hhead : a.head = s.waiting.head) (hinbox : a.inbox = s.waiting.inbox)
    (hclient : ∀ j, s'.client j = if j = c then
      { (s.client j).free with reply := (s.client j).reply ++ [r] } else s.client j) :
    s'.waiting = a.release c r := by
  apply Waiting.ext
  · exact hcontents
  · exact hother
  · exact funext hqueue
  · funext j
    show (s'.client j).target = if j = c then none else a.target j
    rw [hclient, htarget]
    split <;> rfl
  · funext j
    show (s'.client j).lastBlpop = a.head j
    rw [hclient, hhead]
    split <;> rfl
  funext j
  show (s'.client j).reply = if j = c then a.inbox j ++ [r] else a.inbox j
  rw [hclient, hinbox]
  split <;> rfl

theorem client_addReply_free
    (hclient : ∀ j, s'.client j = if j = c then (s.client j).free else s.client j) (j : Nat) :
    (s'.addReply c r).client j = if j = c then
      { (s.client j).free with reply := (s.client j).reply ++ [r] } else s.client j := by
  show (if j = c then _ else _) = _
  rw [hclient]
  by_cases hj : j = c
  · rw [if_pos hj, if_pos hj, if_pos hj]
    rfl
  · rw [if_neg hj, if_neg hj, if_neg hj]

/-- The state `s₁` after an element was popped from the key `p` of `s`, with `l` left, and the
client `c` was unblocked. -/
structure Popped (s s₁ : Server) (p : DbKey) (c : Nat) (l : List Sds) (w : List DbKey) : Prop where
  ok : s₁.Ok {p} w
  value : ∀ q, s₁.value q = if q = p then some (.list l) else s.value q
  blocked : ∀ q, s₁.blocked q = (s.blocked q).erase c
  client : ∀ j, s₁.client j = if j = c then (s.client j).free else s.client j
  count : s₁.bpopBlockedClients + 1 = s.bpopBlockedClients

theorem Ok.popped (h : s.Ok {p} w) (hc : c ∈ s.blocked p) (l : List Sds) :
    ∃ s₁, (s.setDict p (some (.list l))).unblockClient c = .ok s₁ ∧ Popped s s₁ p c l w := by
  have hblocked : (s.client c).blocked = true := by
    rw [h.blocked_iff]
    exact ne_nil_of_mem ((h.mem_blocked c p).mp hc).2
  have h0 : (s.setDict p (some (.list l))).Ok {p} w := h.setDict rfl _
  obtain ⟨s₁, hs1, htables, hvalue, hready, hreadyKeys, hcount, hblocked, hclient⟩ :=
    h0.toTables.unblockClient hblocked
  have hvalue : ∀ q, s₁.value q = if q = p then some (.list l) else s.value q := by
    intro q
    rw [hvalue, value_setDict]
  rw [blocked_setDict] at hblocked
  refine ⟨s₁, hs1, ⟨htables, fun q hq => ?_, fun q hqp hb l' hl' => ?_⟩, hvalue, hblocked, hclient,
    hcount⟩
  · rw [hready] at hq
    rw [hreadyKeys]
    exact h0.flagged q hq
  have hqp' : q ≠ p := hqp
  rw [hvalue, if_neg hqp'] at hl'
  rw [hreadyKeys]
  refine h.signalled q hqp (fun hnil => hb ?_) l' hl'
  rw [hblocked, hnil]
  rfl

namespace Popped

variable {s₁ : Server} {c : Nat} {l l₀ : List Sds}

variable (h : Popped s s₁ p c l w)
include h

theorem noEmpty (hn : s.NoEmpty {p}) : s₁.NoEmpty {p} := by
  intro q hqp
  have hqp' : q ≠ p := hqp
  rw [h.value, if_neg hqp']
  exact hn q hqp

theorem contents_eq : s₁.contents = (s.waiting.setList p l).contents := by
  funext q
  show s₁.contents q = if q = p then l else s.contents q
  split
  · next hqp => exact contents_of_value ((h.value q).trans (if_pos hqp))
  · next hqp => exact contents_congr ((h.value q).trans (if_neg hqp))

theorem other_eq (hlist : s.value p = some (.list l₀)) : s₁.waiting.other = s.waiting.other := by
  funext q
  show isOther (s₁.value q) = isOther (s.value q)
  rw [h.value]
  split
  · next hqp =>
    rw [hqp, hlist]
    rfl
  · rfl

end Popped

/-- What a service leaves: the invariant, a list in the key, the other clients of the key, and one
blocked client less. -/
structure Served (s s' : Server) (p : DbKey) (w : List DbKey) (rest : List Nat) : Prop where
  ok : s'.Ok {p} w
  noEmpty : s'.NoEmpty {p}
  list : ∃ l, s'.value p = some (.list l)
  blocked : s'.blocked p = rest
  count : s'.bpopBlockedClients + 1 = s.bpopBlockedClients
  service : s.waiting.Service s'.waiting

section

variable {s₁ : Server} {c : Nat} {rest : List Nat} {v dst : Sds} {l₀ l : List Sds}

theorem Popped.blocked_eq (h₁ : Popped s s₁ p c l w) (hq : s.blocked p = c :: rest) :
    s₁.blocked p = rest := by
  rw [h₁.blocked, hq, erase_cons_head]

theorem Popped.value_eq (h₁ : Popped s s₁ p c l w) : s₁.value p = some (.list l) :=
  (h₁.value p).trans (if_pos rfl)

section

variable (h₁ : Popped s s₁ p c l w) (hn : s.NoEmpty {p}) (hlist : s.value p = some (.list l₀))
  (hq : s.blocked p = c :: rest)
  (hpop : listTypePop (s.contents p) (s.client c).lastBlpop = some (v, l))
include h₁ hn hlist hq hpop

theorem Popped.pop
    (htarget : (s.client c).target = none) : Served s (s₁.addReply c (.pair p.2 v)) p w rest := by
  have hwaiting : (s₁.addReply c (.pair p.2 v)).waiting =
      (s.waiting.setList p l).release c (.pair p.2 v) :=
    waiting_eq_release h₁.contents_eq (h₁.other_eq hlist) h₁.blocked rfl rfl rfl
      (client_addReply_free h₁.client)
  exact ⟨h₁.ok.addReply _, h₁.noEmpty hn, ⟨l, h₁.value_eq⟩, h₁.blocked_eq hq, h₁.count,
    hwaiting ▸ .pop hq hpop htarget⟩

/-- The client is refused. The pop is undone, so that the list is as it was. -/
theorem Popped.refuse
    (htarget : (s.client c).target = some dst) (hdst : s.waiting.other (p.1, dst) = true) :
    Served s ((s₁.addReply c .wrongtypeerr).setDict p (some (.list l₀))) p w rest := by
  have hvalue : ∀ q, ((s₁.addReply c .wrongtypeerr).setDict p (some (.list l₀))).value q =
      s.value q := by
    intro q
    rw [value_setDict]
    split
    · next hqp => rw [hqp, hlist]
    · next hqp => exact (h₁.value q).trans (if_neg hqp)
  have hblocked : ∀ q, ((s₁.addReply c .wrongtypeerr).setDict p (some (.list l₀))).blocked q =
      (s.blocked q).erase c := by
    intro q
    rw [blocked_setDict]
    exact h₁.blocked q
  have hwaiting : ((s₁.addReply c .wrongtypeerr).setDict p (some (.list l₀))).waiting =
      s.waiting.release c .wrongtypeerr :=
    waiting_eq_release (funext fun q => contents_congr (hvalue q))
      (funext fun q => congrArg isOther (hvalue q)) hblocked rfl rfl rfl
      (client_addReply_free h₁.client)
  refine ⟨(h₁.ok.addReply _).setDict rfl _, fun q hqp => ?_, ⟨l₀, (hvalue p).trans hlist⟩, ?_,
    h₁.count, hwaiting ▸ .refuse hq hpop htarget hdst⟩
  · rw [hvalue]
    exact hn q hqp
  · rw [hblocked, hq, erase_cons_head]

theorem Popped.move
    (htarget : (s.client c).target = some dst) (hdst : s.waiting.other (p.1, dst) = false)
    (hx : ∀ x, s₁.value (p.1, dst) ≠ some (.other x)) :
    ∃ s₂, s₁.rpoplpushHandlePush c (p.1, dst) v = .ok s₂ ∧ Served s s₂ p w rest := by
  obtain ⟨s₂, hs2, hok2, hblocked2, hcount2, hvalue2, hclient2⟩ :=
    h₁.ok.rpoplpushHandlePush (i := c) v hx
  have hcontents : s₂.contents = ((s.waiting.setList p l).setList (p.1, dst)
      (v :: (s.waiting.setList p l).contents (p.1, dst))).contents := by
    funext q
    show s₂.contents q = if q = (p.1, dst) then v :: (s.waiting.setList p l).contents (p.1, dst)
      else (s.waiting.setList p l).contents q
    rw [← h₁.contents_eq]
    split
    · next hqd => exact contents_of_value ((hvalue2 q).trans (if_pos hqd))
    · next hqd => exact contents_congr ((hvalue2 q).trans (if_neg hqd))
  have hother : s₂.waiting.other = s.waiting.other := by
    rw [← h₁.other_eq hlist]
    funext q
    show isOther (s₂.value q) = isOther (s₁.value q)
    rw [hvalue2]
    split
    · next hqd =>
      rw [hqd]
      exact ((congrFun (h₁.other_eq hlist) _).trans hdst).symm
    · rfl
  have hwaiting : s₂.waiting = ((s.waiting.setList p l).setList (p.1, dst)
      (v :: (s.waiting.setList p l).contents (p.1, dst))).release c (.bulk v) := by
    refine waiting_eq_release hcontents hother (fun q => ?_) rfl rfl rfl fun j => ?_
    · rw [hblocked2]
      exact h₁.blocked q
    rw [hclient2]
    exact client_addReply_free h₁.client j
  refine ⟨s₂, hs2, hok2, fun q hqp => ?_, ?_, ?_, ?_, hwaiting ▸ .move hq hpop htarget hdst⟩
  · rw [hvalue2]
    split
    · simp
    · exact h₁.noEmpty hn q hqp
  · rw [hvalue2]
    split
    · exact ⟨_, rfl⟩
    · exact ⟨l, h₁.value_eq⟩
  · rw [hblocked2, h₁.blocked_eq hq]
  · rw [hcount2, h₁.count]

end

theorem serveReceiver_spec (h : s.Ok {p} w) (hn : s.NoEmpty {p})
    (hlist : s.value p = some (.list l₀)) (hq : s.blocked p = c :: rest)
    (hpop : listTypePop (s.contents p) (s.client c).lastBlpop = some (v, l)) :
    ∃ s', s.serveReceiver p c v l = .ok s' ∧ Served s s' p w rest := by
  have hc : c ∈ s.blocked p := hq ▸ mem_cons_self
  obtain ⟨s₁, hs1, h1⟩ := h.popped hc l
  unfold serveReceiver
  rw [hs1, ok_bind]
  unfold serveClientBlockedOnList
  rcases htarget : (s.client c).target with _ | dst
  · exact ⟨_, rfl, h1.pop hn hlist hq hpop htarget⟩
  have hdb : (s₁.client c).db = p.1 := by
    rw [h1.client, if_pos rfl]
    exact ((h.mem_blocked c p).mp hc).1
  dsimp only
  rw [hdb]
  have hother := congrFun (h1.other_eq hlist) (p.1, dst)
  cases hdst : s.waiting.other (p.1, dst) with
  | true =>
    obtain ⟨x, hx⟩ := isOther_eq_true_iff.mp (hother.trans hdst)
    rw [hx]
    refine ⟨_, ?_, h1.refuse hn hlist hq hpop htarget hdst⟩
    show Except.ok ((s₁.addReply c .wrongtypeerr).setDict p
      (some (.list (listTypePush (s₁.contents p) v (s.client c).lastBlpop)))) = _
    rw [contents_of_value h1.value_eq, listTypePush_of_pop hpop, contents_of_value hlist]
  | false =>
    have hx : ∀ x, s₁.value (p.1, dst) ≠ some (.other x) := by
      intro x hx
      have hfalse := hother.trans hdst
      exact Bool.false_ne_true (hfalse.symm.trans (isOther_eq_true_iff.mpr ⟨x, hx⟩))
    obtain ⟨s2, hs2, h2⟩ := h1.move hn hlist hq hpop htarget hdst hx
    refine ⟨s2, ?_, h2⟩
    split
    · next x hx' => exact absurd hx' (hx x)
    rw [hs2]
    rfl

end

/-! ## The loops -/

/-- A sequence of services. Without any, the counter and `server.ready_keys` stay. -/
structure Serves (s s' : Server) : Prop where
  services : Relation.ReflTransGen Waiting.Service s.waiting s'.waiting
  count : s'.bpopBlockedClients < s.bpopBlockedClients ∨
    s'.bpopBlockedClients = s.bpopBlockedClients ∧ s'.readyKeys = s.readyKeys

theorem Serves.refl (s : Server) : s.Serves s := ⟨.refl, .inr ⟨rfl, rfl⟩⟩

theorem Serves.trans (h : s.Serves s') (h' : s'.Serves s'') : s.Serves s'' where
  services := h.services.trans h'.services
  count := by
    rcases h.count with h1 | ⟨h1, hr1⟩
    · rcases h'.count with h2 | ⟨h2, -⟩
      · exact .inl (Nat.lt_trans h2 h1)
      · exact .inl (h2 ▸ h1)
    rcases h'.count with h2 | ⟨h2, hr2⟩
    · exact .inl (h1 ▸ h2)
    · exact .inr ⟨h2.trans h1, hr2.trans hr1⟩

theorem Served.serves (h : Served s s' p w rest) : s.Serves s' :=
  ⟨.single h.service, .inl (by have := h.count; omega)⟩

theorem serveClients_spec (h : s.Ok {p} w) (hn : s.NoEmpty {p})
    (hlist : ∃ l, s.value p = some (.list l)) (hlen : (s.blocked p).length = n) :
    ∃ s', serveClients p n s = .ok s' ∧ s'.Ok {p} w ∧ s'.NoEmpty {p} ∧ s.Serves s' ∧
      ∃ l, s'.value p = some (.list l) ∧ (s'.blocked p = [] ∨ l = []) := by
  induction n generalizing s with
  | zero =>
    obtain ⟨l, hl⟩ := hlist
    exact ⟨s, rfl, h, hn, Serves.refl s, l, hl, .inl (eq_nil_of_length_eq_zero hlen)⟩
  | succ n ih =>
    obtain ⟨l₀, hl0⟩ := hlist
    unfold serveClients
    rcases hq : s.blocked p with _ | ⟨c, rest⟩
    · rw [hq] at hlen
      cases hlen
    dsimp only
    rcases hpop : listTypePop (s.contents p) (s.client c).lastBlpop with _ | r
    · have hempty := listTypePop_eq_none.mp hpop
      rw [contents_of_value hl0] at hempty
      exact ⟨s, rfl, h, hn, Serves.refl s, l₀, hl0, .inr hempty⟩
    obtain ⟨v, l⟩ := r
    obtain ⟨s₁, hs1, h1⟩ := serveReceiver_spec h hn hl0 hq hpop
    have hlen1 : (s₁.blocked p).length = n := by
      rw [h1.blocked]
      rw [hq] at hlen
      exact Nat.succ.inj hlen
    obtain ⟨s2, hs2, hok2, hn2, hserves2, hlist2⟩ := ih h1.ok h1.noEmpty h1.list hlen1
    refine ⟨s2, ?_, hok2, hn2, h1.serves.trans hserves2, hlist2⟩
    dsimp only
    rw [hs1]
    exact hs2

theorem waiting_dbDelete (h : s.value p = some (.list [])) : (s.dbDelete p).waiting = s.waiting := by
  have hvalue : ∀ q, (s.dbDelete p).value q = if q = p then none else s.value q :=
    fun q => value_setDict s p q none
  apply Waiting.ext
  · funext q
    show (s.dbDelete p).contents q = s.contents q
    unfold contents
    rw [hvalue]
    by_cases hqp : q = p
    · rw [if_pos hqp, hqp, h]
    · rw [if_neg hqp]
  · funext q
    show isOther ((s.dbDelete p).value q) = isOther (s.value q)
    rw [hvalue]
    by_cases hqp : q = p
    · rw [if_pos hqp, hqp, h]
      rfl
    · rw [if_neg hqp]
  · exact blocked_setDict s p none
  · rfl
  · rfl
  · rfl

theorem waiting_setReady (s : Server) (p : DbKey) (b : Bool) : (s.setReady p b).waiting = s.waiting := by
  unfold waiting contents
  rw [value_setReady, blocked_setReady]
  rfl

theorem serveKey_spec (h : s.Ok ∅ (p :: w)) (hn : s.NoEmpty ∅) :
    ∃ s', s.serveKey p = .ok s' ∧ s'.Ok ∅ w ∧ s'.NoEmpty ∅ ∧ s.Serves s' := by
  -- The key is taken from `db->ready_keys`.
  have h0 : (s.setReady p false).Ok {p} w := by
    refine ⟨h.toTables.congr (blocked_setReady s p false) rfl fun _ => ⟨rfl, rfl, rfl⟩,
      fun q hq => ?_, fun q hqp hb l hl => ?_⟩
    · rw [ready_setReady] at hq
      split at hq
      · cases hq
      · next hqp => exact (h.flagged q hq).imp_left fun hm => (mem_cons.mp hm).resolve_left hqp
    rw [blocked_setReady] at hb
    rw [value_setReady] at hl
    exact (h.signalled q (Set.notMem_empty q) hb l hl).imp_left
      fun hm => (mem_cons.mp hm).resolve_left hqp
  have hn0 : (s.setReady p false).NoEmpty ∅ := by
    intro q hq
    rw [value_setReady]
    exact hn q hq
  have hserves0 : s.Serves (s.setReady p false) := by
    refine ⟨?_, .inr ⟨rfl, rfl⟩⟩
    rw [waiting_setReady]
  have hinsert : insert p (∅ : Set DbKey) = {p} := insert_empty_eq p
  unfold serveKey
  generalize s.setReady p false = s0 at h0 hn0 hserves0
  dsimp only
  split
  · next l hl =>
    obtain ⟨s₁, hs1, hok1, hn1, hserves1, l1, hl1, hdone⟩ :=
      serveClients_spec h0 (fun q _ => hn0 q (Set.notMem_empty q)) ⟨l, hl⟩ rfl
    rw [hs1]
    refine ⟨_, rfl, ?_⟩
    split
    · rename_i hempty
      refine ⟨?_, fun q _ => ?_, (hserves0.trans hserves1).trans ⟨?_, .inr ⟨rfl, rfl⟩⟩⟩
      · have : (s₁.dbDelete p).Ok {p} w := hok1.setDict rfl none
        refine Ok.drop (hinsert ▸ this) fun _ _ l hl => ?_
        unfold dbDelete at hl
        rw [value_setDict, if_pos rfl] at hl
        cases hl
      · unfold dbDelete
        rw [value_setDict]
        split
        · simp
        · next hqp => exact hn1 q hqp
      · rw [waiting_dbDelete hempty]
    rename_i hempty
    refine ⟨Ok.drop (hinsert ▸ hok1) fun _ hb _ _ => ?_, fun q _ => ?_, hserves0.trans hserves1⟩
    · rcases hdone with hnone | rfl
      · exact absurd hnone hb
      · exact absurd hl1 hempty
    by_cases hqp : q = p
    · rw [hqp]
      exact hempty
    · exact hn1 q hqp
  next hnot =>
  refine ⟨s0, rfl, Ok.drop (hinsert ▸ h0) fun _ _ l hl => absurd hl (hnot l), hn0, hserves0⟩

theorem foldlM_serveKey (h : s.Ok ∅ w) (hn : s.NoEmpty ∅) :
    ∃ s', w.foldlM serveKey s = .ok s' ∧ s'.Ok ∅ [] ∧ s'.NoEmpty ∅ ∧ s.Serves s' := by
  induction w generalizing s with
  | nil => exact ⟨s, rfl, h, hn, Serves.refl s⟩
  | cons p w ih =>
    obtain ⟨s₁, hs1, hok1, hn1, hserves1⟩ := serveKey_spec h hn
    obtain ⟨s2, hs2, hok2, hn2, hserves2⟩ := ih hok1 hn1
    refine ⟨s2, ?_, hok2, hn2, hserves1.trans hserves2⟩
    rw [foldlM_cons, hs1]
    exact hs2

theorem handleLoop_of_readyKeys_nil (n : Nat) (h : s.readyKeys = []) : handleLoop n s = .ok s := by
  cases n <;> exact if_pos h

theorem handleLoop_spec (h : s.Ok ∅ []) (hn : s.NoEmpty ∅) (hfuel : s.bpopBlockedClients < n) :
    ∃ s', handleLoop n s = .ok s' ∧ s'.Ok ∅ [] ∧ s'.NoEmpty ∅ ∧ s'.readyKeys = [] ∧
      Relation.ReflTransGen Waiting.Service s.waiting s'.waiting := by
  induction n generalizing s with
  | zero => cases hfuel
  | succ n ih =>
    by_cases hready : s.readyKeys = []
    · exact ⟨s, handleLoop_of_readyKeys_nil _ hready, h, hn, hready, .refl⟩
    -- The signalled keys are moved to the list that is served.
    have h0 : ({ s with readyKeys := [] } : Server).Ok ∅ s.readyKeys := by
      refine ⟨h.toTables.congr rfl rfl fun _ => ⟨rfl, rfl, rfl⟩, fun q hq => ?_,
        fun q hqu hb l hl => ?_⟩
      · exact .inl ((h.flagged q hq).resolve_left not_mem_nil)
      · exact .inl ((h.signalled q hqu hb l hl).resolve_left not_mem_nil)
    obtain ⟨s₁, hs1, hok1, hn1, hserves1⟩ := foldlM_serveKey h0 hn
    have hstep : handleLoop (n + 1) s = handleLoop n s₁ := by
      show (if s.readyKeys = [] then _ else _) = _
      rw [if_neg hready, hs1]
      rfl
    rw [hstep]
    rcases hserves1.count with hless | ⟨-, hnil⟩
    · have hless : s₁.bpopBlockedClients < s.bpopBlockedClients := hless
      obtain ⟨s2, hs2, hok2, hn2, hready2, hservices2⟩ := ih hok1 hn1 (by omega)
      exact ⟨s2, hs2, hok2, hn2, hready2, hserves1.services.trans hservices2⟩
    · exact ⟨s₁, handleLoop_of_readyKeys_nil n hnil, hok1, hn1, hnil, hserves1.services⟩

/-- `handleClientsBlockedOnLists` ends, is a sequence of services, and leaves no list with blocked
clients. -/
theorem handleClientsBlockedOnLists_spec (h : s.Ok ∅ []) (hn : s.NoEmpty ∅) :
    ∃ s', s.handleClientsBlockedOnLists = .ok s' ∧ s'.Ok ∅ [] ∧ s'.NoEmpty ∅ ∧
      s'.readyKeys = [] ∧ (∀ q, s'.blocked q ≠ [] → ∀ l, s'.value q ≠ some (.list l)) ∧
      Relation.ReflTransGen Waiting.Service s.waiting s'.waiting := by
  obtain ⟨s', hs', hok, hn', hready, hservices⟩ := handleLoop_spec h hn (Nat.lt_succ_self _)
  refine ⟨s', hs', hok, hn', hready, fun q hb l hl => ?_, hservices⟩
  rcases hok.signalled q (Set.notMem_empty q) hb l hl with hm | hm
  · cases hm
  rw [hready] at hm
  cases hm

end Server

end UfsRedis.Blocking
