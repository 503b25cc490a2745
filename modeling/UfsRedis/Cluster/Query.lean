import UfsRedis.Cluster.SlotBinding
import UfsRedis.Lib.Fold

/-!
# The node that serves a command

`getNodeByQuery` of `src/cluster.c`: the slot of the keys of a command, or of all commands that
`EXEC` runs, gives the node that serves them. The keys are those of `getKeysFromCommand`, and `hash`
is `keyHashSlot`.

`CLUSTER SETSLOT` lets a slot migrate to the node itself. The node is then returned with
`CLUSTER_REDIR_ASK` when a key is missing, and `processCommand`, which compares the node only, runs
the command.
-/

namespace UfsRedis.Cluster

open List

/-- `CLUSTER_REDIR_*`. -/
inductive Redir where
  | none
  | crossSlot
  | unstable
  | ask
  | moved
  | downState
  | downUnbound
  deriving DecidableEq, Repr

/-- What is read of the command. `EVAL` and `EVALSHA` count as `CMD_READONLY`. -/
structure QueryCommand where
  migrate : Bool
  readonly : Bool
  asking : Bool

/-- The state of the cluster, the flags of the client, and the keys that `lookupKeyRead` finds. -/
structure QueryView where
  clusterOk : Bool
  asking : Bool
  readonly : Bool
  present : Sds → Bool

/-- The variables of the loop over the keys. -/
structure KeyScan where
  firstkey : Option Sds := none
  slot : Nat := 0
  n : Option Nat := none
  migratingSlot : Bool := false
  importingSlot : Bool := false
  multipleKeys : Bool := false
  missingKeys : Nat := 0

/-- `migrating_slot || importing_slot`: missing keys are counted. -/
def KeyScan.isOpen (r : KeyScan) : Bool := r.migratingSlot || r.importingSlot

section

variable (hash : Sds → Nat) (c : ClusterState) (v : QueryView)

/-- The slot of a key: it is taken from the first one, and must be the same for all others. -/
def scanSlot (r : KeyScan) (key : Sds) : Except Redir KeyScan :=
  match r.firstkey with
  | none =>
    let slot := hash key
    match c.slots slot with
    | none => .error .downUnbound
    | some n =>
      let migrating := n == c.myself && (c.migratingSlotsTo slot).isSome
      .ok { r with
        firstkey := some key
        slot := slot
        n := some n
        migratingSlot := migrating
        importingSlot := !migrating && (c.importingSlotsFrom slot).isSome }
  | some firstkey =>
    if firstkey = key then .ok r
    else if r.slot ≠ hash key then .error .crossSlot
    else .ok { r with multipleKeys := true }

/-- One round of the loop. -/
def scanKey (r : KeyScan) (key : Sds) : Except Redir KeyScan := do
  let r ← scanSlot hash c r key
  .ok { r with missingKeys := r.missingKeys + if r.isOpen && !v.present key then 1 else 0 }

/-- `getNodeByQuery`. A command is a queue of one. -/
def getNodeByQuery (cmd : QueryCommand) (queue : List (List Sds)) : Option Nat × Redir :=
  match queue.flatten.foldlM (scanKey hash c v) {} with
  | .error e => (none, e)
  | .ok r =>
    match r.n with
    | none => (some c.myself, .none)
    | some n =>
      if !v.clusterOk then (none, .downState)
      else if r.isOpen && cmd.migrate then (some c.myself, .none)
      else if r.migratingSlot && r.missingKeys != 0 then (c.migratingSlotsTo r.slot, .ask)
      else if r.importingSlot && (v.asking || cmd.asking) then
        if r.multipleKeys && r.missingKeys != 0 then (none, .unstable) else (some c.myself, .none)
      else if v.readonly && cmd.readonly && !(c.nodes c.myself).master &&
          (c.nodes c.myself).slaveof == some n then (some c.myself, .none)
      else (some n, if n ≠ c.myself then .moved else .none)

end

variable {hash : Sds → Nat} {c : ClusterState} {v : QueryView} {keys : List Sds} {r r' : KeyScan}
  {key first : Sds}

theorem scanKey_next (h : r.firstkey = some first) (hfirst : hash first = r.slot)
    (hr : scanKey hash c v r key = .ok r') :
    hash key = r.slot ∧ r' = { r with
      multipleKeys := r.multipleKeys || key ≠ first
      missingKeys := r.missingKeys + if r.isOpen && !v.present key then 1 else 0 } := by
  obtain ⟨r1, hslot, hcount⟩ := Lib.eq_ok_of_bind hr
  obtain ⟨hkey, rfl⟩ : hash key = r.slot ∧
      r1 = { r with multipleKeys := r.multipleKeys || key ≠ first } := by
    simp only [scanSlot, h] at hslot
    split_ifs at hslot with heq hne
    · cases hslot
      exact ⟨heq ▸ hfirst, by simp [heq]⟩
    cases hslot
    exact ⟨(not_not.mp hne).symm, by simp [Ne.symm heq, h]⟩
  exact ⟨hkey, (Except.ok.inj hcount).symm⟩

theorem scan_rest (h : r.firstkey = some first) (hfirst : hash first = r.slot)
    (hr : keys.foldlM (scanKey hash c v) r = .ok r') :
    (∀ key ∈ keys, hash key = r.slot) ∧ r' = { r with
      multipleKeys := r.multipleKeys || keys.any (· ≠ first)
      missingKeys := r.missingKeys + if r.isOpen then keys.countP (!v.present ·) else 0 } := by
  induction keys generalizing r with
  | nil =>
    cases hr
    simp
  | cons key keys ih =>
    rw [foldlM_cons] at hr
    obtain ⟨r1, hkey, hrest⟩ := Lib.eq_ok_of_bind hr
    obtain ⟨hslot, rfl⟩ := scanKey_next h hfirst hkey
    obtain ⟨hall, rfl⟩ := ih (by exact h) (by exact hfirst) hrest
    refine ⟨forall_mem_cons.mpr ⟨hslot, hall⟩, ?_⟩
    congr 1
    · rw [any_cons, Bool.or_assoc]
    rw [add_assoc, countP_cons]
    change r.missingKeys + (_ + if r.isOpen then _ else 0) = _
    cases r.isOpen <;> simp [add_comm]

/-- What the node promises of the keys it serves: they are in one slot, and all of them are there if
the slot is migrating, or imported for a client that asks. -/
def KeysServed (hash : Sds → Nat) (c : ClusterState) (v : QueryView) (cmd : QueryCommand)
    (keys : List Sds) : Prop :=
  ∃ s, (∀ key ∈ keys, hash key = s) ∧
    ((c.slots s = some c.myself ∧ c.migratingSlotsTo s ≠ none ∨
      c.slots s ≠ some c.myself ∧ c.importingSlotsFrom s ≠ none ∧ (v.asking || cmd.asking) = true) →
      ∀ key ∈ keys, v.present key = true)

/-- The promise is kept for the commands with two different keys that the node serves itself, unless
a key is missing in a slot of the node that is migrating to the node itself. -/
theorem served_keys_present {cmd : QueryCommand} {queue : List (List Sds)}
    (hcmd : cmd.migrate = false) (htwo : ∃ x ∈ queue.flatten, ∃ y ∈ queue.flatten, x ≠ y)
    (h : (getNodeByQuery hash c v cmd queue).1 = some c.myself) :
    KeysServed hash c v cmd queue.flatten ↔ ∀ key ∈ queue.flatten,
      c.slots (hash key) = some c.myself → c.migratingSlotsTo (hash key) = some c.myself →
        v.present key = true := by
  constructor
  · rintro ⟨s, hall, hpresent⟩ key hkey hown hto
    rw [hall key hkey] at hown hto
    exact hpresent (.inl ⟨hown, by simp [hto]⟩) key hkey
  intro hself
  unfold getNodeByQuery at h
  generalize queue.flatten = keys at *
  obtain ⟨x, hx, y, hy, hxy⟩ := htwo
  obtain _ | ⟨first, keys⟩ := keys
  · cases hx
  rcases hr : (first :: keys).foldlM (scanKey hash c v) {} with e | r
  · rw [hr] at h
    cases h
  rw [hr] at h
  rw [foldlM_cons] at hr
  obtain ⟨r1, hr1, hrest⟩ := Lib.eq_ok_of_bind hr
  obtain ⟨r2, hslot, hcount⟩ := Lib.eq_ok_of_bind hr1
  simp only [scanSlot] at hslot
  split at hslot
  · cases hslot
  next n hn =>
  cases hslot
  cases hcount
  obtain ⟨hall, rfl⟩ := scan_rest (show _ = some first from rfl) rfl hrest
  have hslots : ∀ key ∈ first :: keys, hash key = hash first := forall_mem_cons.mpr ⟨rfl, hall⟩
  refine ⟨hash first, hslots, fun hopen => ?_⟩
  have hmultiple : keys.any (· ≠ first) = true := by
    rw [any_eq_true]
    by_cases hxf : x = first
    · exact ⟨y, mem_of_ne_of_mem (hxf ▸ hxy.symm) hy, by simpa [← hxf] using hxy.symm⟩
    · exact ⟨x, mem_of_ne_of_mem hxf hx, by simpa using hxf⟩
  -- with a missing key, the node is not returned
  by_contra hmissing
  have hsome : v.present first = true → ∃ x ∈ keys, v.present x = false := by
    simpa using hmissing
  rcases hopen with ⟨hown, hmigrating⟩ | ⟨hown, himporting, hasking⟩
  · obtain rfl : n = c.myself := Option.some.inj (hn.symm.trans hown)
    have hm := Option.isSome_iff_ne_none.mpr hmigrating
    cases hok : v.clusterOk <;> simp [KeyScan.isOpen, hok, hcmd, hm] at h
    rw [if_pos hsome] at h
    refine hmissing fun key hkey => ?_
    exact hself key hkey (hslots key hkey ▸ hn) (hslots key hkey ▸ h)
  have hi := Option.isSome_iff_ne_none.mpr himporting
  have hne : n ≠ c.myself := fun e => hown (e ▸ hn)
  cases hok : v.clusterOk <;> simp [KeyScan.isOpen, hok, hcmd, hi, hne, hasking] at h
  rw [if_pos ⟨by simpa using hmultiple, hsome⟩] at h
  cases h

/-- Node 0 has all slots, and they are migrating to the node `n`. -/
def migratingTo (n : Nat) : ClusterState :=
  { ClusterState.unassigned with slots := fun _ => some 0, migratingSlotsTo := fun _ => some n }

/-- The slot is migrating to another node, and both keys are still there. -/
theorem served_keys_present_migrating :
    KeysServed List.length (migratingTo 1) ⟨true, false, false, fun _ => true⟩ ⟨false, true, false⟩
      [['a'], ['b']] :=
  (@served_keys_present _ _ _ _ [[['a'], ['b']]] rfl
    ⟨['a'], by decide, ['b'], by decide, by decide⟩ rfl).mpr fun _ _ _ _ => rfl

/-- The slot is migrating to the node itself, which serves the command without the second key. -/
theorem served_without_key : getNodeByQuery List.length (migratingTo 0)
    ⟨true, false, false, fun key => key == ['a']⟩ ⟨false, true, false⟩ [[['a'], ['b']]] =
      (some 0, .ask) := by
  decide

end UfsRedis.Cluster
