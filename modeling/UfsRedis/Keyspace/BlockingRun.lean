import UfsRedis.Keyspace.BlockingServe

/-!
# Blocked clients over whole runs

Every command keeps the invariant of `handleClientsBlockedOnLists`, that a list with blocked clients
is signalled, but for two: `SORT` with `STORE` replaces the value of a key that is not a list with a
list by `dbOverwrite`, which does not signal, and `RESTORE` can create an empty list, on which a
client can block. `blocked_pops_served` is about the runs without these.
-/

namespace UfsRedis.Blocking

open List Set

/-- Between the parts of a command: the lists with blocked clients are signalled, and no list is
empty. -/
structure Server.Sound (s : Server) : Prop where
  ok : s.Ok ∅ []
  noEmpty : s.NoEmpty ∅

namespace Server

variable {s s' : Server} {i : Nat} {p q : DbKey}

/-! ## Parts of commands -/

theorem Tables.keys_eq_nil (h : s.Tables) (hi : (s.client i).blocked = false) :
    (s.client i).keys = [] := by
  by_contra hne
  rw [(h.blocked_iff i).mpr hne] at hi
  cases hi

variable {l keys ks : List Sds} {v : Option Value} {u : Set DbKey} {d : Nat} {key : Sds}

theorem Ok.mem_readyKeys (h : s.Ok ∅ []) (hb : s.blocked p ≠ [])
    (hl : s.value p = some (.list l)) : p ∈ s.readyKeys :=
  (h.signalled p (notMem_empty p) hb l hl).resolve_left not_mem_nil

theorem Ok.put (h : s.Ok ∅ []) (v : Option Value)
    (hsignalled : ∀ l, v = some (.list l) → s.blocked p ≠ [] → p ∈ s.readyKeys) :
    (s.setDict p v).Ok ∅ [] := by
  apply Ok.drop ((h.mono (Set.subset_insert p ∅)).setDict (mem_insert p ∅) v)
  intro _ hb l hl
  rw [blocked_setDict] at hb
  rw [value_setDict, if_pos rfl] at hl
  exact .inr (hsignalled l hl hb)

theorem Ok.putList (h : s.Ok ∅ []) (hl : s.value p = some (.list l)) (l' : List Sds) :
    (s.setDict p (some (.list l'))).Ok ∅ [] :=
  h.put _ fun _ _ hb => h.mem_readyKeys hb hl

theorem NoEmpty.put (h : s.NoEmpty {p}) (hv : v ≠ some (.list [])) : (s.setDict p v).NoEmpty ∅ := by
  intro q _
  rw [value_setDict]
  split
  · exact hv
  · next hqp => exact h q hqp

theorem NoEmpty.mono (h : s.NoEmpty ∅) (u : Set DbKey) : s.NoEmpty u :=
  fun q _ => h q (notMem_empty q)

namespace Sound

variable (h : s.Sound)
include h

theorem modifyClient (hf : ∀ c, (f c).db = c.db ∧ (f c).keys = c.keys ∧ (f c).blocked = c.blocked) :
    (s.modifyClient i f).Sound :=
  ⟨h.ok.modifyClient hf, h.noEmpty⟩

theorem addReply (r : Reply) : (s.addReply i r).Sound := ⟨h.ok.addReply r, h.noEmpty⟩

theorem delete (p : DbKey) : (s.dbDelete p).Sound :=
  ⟨h.ok.put none (by simp), (h.noEmpty.mono _).put (by simp)⟩

theorem putOther (p : DbKey) (v : Sds) : (s.setDict p (some (.other v))).Sound :=
  ⟨h.ok.put _ (by simp), (h.noEmpty.mono _).put (by simp)⟩

theorem putList (hl : s.value p = some (.list l)) (hl' : l' ≠ []) :
    (s.setDict p (some (.list l'))).Sound := by
  refine ⟨h.ok.putList hl l', (h.noEmpty.mono _).put fun e => hl' ?_⟩
  cases e
  rfl

theorem putRest (hl : s.value p = some (.list l)) (l' : List Sds) : (s.putRest p l').Sound := by
  unfold Server.putRest
  split
  · exact h.delete p
  · next hl' => exact h.putList hl hl'

theorem dbAdd_list (hnone : s.value p = none) (l : List Sds) :
    ∃ s', s.dbAdd p (.list l) = .ok s' ∧ s'.Ok ∅ [] ∧ s'.NoEmpty {p} ∧ s'.blocked = s.blocked ∧
      s'.client = s.client ∧ ∀ q, s'.value q = if q = p then some (.list l) else s.value q := by
  have h' := (h.ok.mono (Set.subset_insert p ∅)).setDict (mem_insert p ∅) (some (.list l))
  obtain ⟨h1, hsignalled⟩ := h'.signalListAsReady p
  rw [blocked_setDict] at hsignalled
  have hvalue : ∀ q, ((s.setDict p (some (.list l))).signalListAsReady p).value q =
      if q = p then some (.list l) else s.value q := by
    intro q
    rw [value_signalListAsReady, value_setDict]
  refine ⟨(s.setDict p (some (.list l))).signalListAsReady p, ?_, ?_, fun q hqp => ?_, ?_, ?_, hvalue⟩
  · unfold dbAdd
    rw [hnone]
    rfl
  · apply Ok.drop h1
    intro _ hb _ _
    rw [blocked_signalListAsReady, blocked_setDict] at hb
    exact hsignalled hb
  · have hqp' : q ≠ p := hqp
    rw [hvalue, if_neg hqp']
    exact h.noEmpty q (notMem_empty q)
  · rw [blocked_signalListAsReady, blocked_setDict]
  · rw [client_signalListAsReady, client_setDict]

theorem dbAdd (hnone : s.value p = none) {v} (hv : v ≠ .list []) :
    ∃ s', s.dbAdd p v = .ok s' ∧ s'.Sound ∧ s'.blocked = s.blocked ∧ s'.client = s.client := by
  cases v with
  | other v =>
    refine ⟨s.setDict p (some (.other v)), ?_, h.putOther p v, blocked_setDict s p _, rfl⟩
    unfold Server.dbAdd
    rw [hnone]
    rfl
  | list l =>
    obtain ⟨s', hs', hok, hn, hblocked, hclient, hvalue⟩ := h.dbAdd_list hnone l
    refine ⟨s', hs', ⟨hok, fun q _ => ?_⟩, hblocked, hclient⟩
    by_cases hqp : q = p
    · rw [hvalue, if_pos hqp]
      intro e
      cases e
      exact hv rfl
    · exact hn q hqp

end Sound

/-! ## Commands that do not block -/

/-- The client `i` has executed a command and is not blocked. -/
structure Keeps (i : Nat) (s s' : Server) : Prop where
  sound : s'.Sound
  blocked : s'.blocked = s.blocked
  free : (s'.client i).blocked = false

theorem Keeps.trans (h : Keeps i s s') (h' : Keeps i s' s'') : Keeps i s s'' :=
  ⟨h'.sound, h'.blocked.trans h.blocked, h'.free⟩

theorem blocked_client_addReply (s : Server) (i : Nat) (r : Reply) :
    ((s.addReply i r).client i).blocked = (s.client i).blocked := by
  show (if i = i then _ else _ : Client).blocked = _
  rw [if_pos rfl]

theorem Keeps.addReply (h : Keeps i s s') (r : Reply) : Keeps i s (s'.addReply i r) :=
  ⟨h.sound.addReply r, h.blocked, (blocked_client_addReply s' i r).trans h.free⟩

theorem Sound.keeps (h : s.Sound) (hi : (s.client i).blocked = false) : Keeps i s s := ⟨h, rfl, hi⟩

theorem Sound.keeps_setDict (h : (s.setDict p v).Sound)
    (hi : (s.client i).blocked = false) : Keeps i s (s.setDict p v) :=
  ⟨h, blocked_setDict s p v, hi⟩

variable (h : s.Sound) (hi : (s.client i).blocked = false)
include h hi

theorem Sound.replies (r : Reply) :
    ∃ s', Except.ok (s.addReply i r) = (.ok s' : Except Fault Server) ∧ Keeps i s s' :=
  ⟨_, rfl, (h.keeps hi).addReply r⟩

theorem pushGenericCommand_keeps (head : Bool) (key : Sds) (values : List Sds) :
    ∃ s', s.pushGenericCommand i head key values = .ok s' ∧ Keeps i s s' := by
  have hne : ∀ l, values ≠ [] → values.foldl (fun l v => listTypePush l v head) l ≠ [] := by
    intro l hvalues
    obtain ⟨vs, v, rfl⟩ := (eq_nil_or_concat values).resolve_left hvalues
    rw [concat_eq_append, foldl_append]
    cases head <;> simp [listTypePush]
  unfold pushGenericCommand
  dsimp only
  generalize ((s.client i).db, key) = p
  split
  · exact h.replies hi _
  next hother =>
  split
  · exact h.replies hi _
  next hvalues =>
  rcases hvalue : s.value p with _ | val
  · obtain ⟨s1, hs1, hok1, hn1, hblocked1, hclient1, hvalue1⟩ := h.dbAdd_list hvalue []
    rw [Option.isNone_none, if_pos rfl, hs1]
    have hp1 : s1.value p = some (.list []) := (hvalue1 p).trans (if_pos rfl)
    refine ⟨_, rfl, Keeps.addReply ⟨⟨hok1.putList hp1 _, hn1.put fun e => ?_⟩, ?_, ?_⟩ _⟩
    · injection e with e
      injection e with e
      exact hne _ hvalues e
    · rw [blocked_setDict, hblocked1]
    rw [client_setDict, hclient1]
    exact hi
  cases val with
  | other v => exact absurd hvalue (hother v)
  | list l =>
    rw [Option.isNone_some, if_neg Bool.false_ne_true]
    exact ⟨_, rfl, ((h.putList hvalue (hne _ hvalues)).keeps_setDict hi).addReply _⟩

theorem putRest_keeps (hl : s.value p = some (.list l)) (l' : List Sds) :
    Keeps i s (s.putRest p l') := by
  refine ⟨h.putRest hl l', ?_, ?_⟩
  · unfold putRest dbDelete
    split <;> rw [blocked_setDict]
  unfold putRest dbDelete
  split <;> exact hi

theorem popGenericCommand_keeps (head : Bool) (key : Sds) :
    Keeps i s (s.popGenericCommand i head key) := by
  unfold popGenericCommand
  dsimp only
  split
  · exact (h.keeps hi).addReply _
  · exact (h.keeps hi).addReply _
  next l hl =>
  split
  · exact (h.keeps hi).addReply _
  next v l' hpop =>
  have hk : Keeps i s (s.addReply i (.bulk v)) := (h.keeps hi).addReply _
  exact hk.trans (putRest_keeps hk.sound hk.free hl l')

theorem rpoplpushCommand_keeps (src dst : Sds) :
    ∃ s', s.rpoplpushCommand i src dst = .ok s' ∧ Keeps i s s' := by
  unfold rpoplpushCommand
  dsimp only
  generalize ((s.client i).db, src) = p
  generalize ((s.client i).db, dst) = q
  split
  · exact h.replies hi _
  · exact h.replies hi _
  next l hl =>
  split
  · exact h.replies hi _
  next v l' hpop =>
  split
  · exact h.replies hi _
  next hother =>
  have hother0 : ∀ x, (s.setDict p (some (.list l'))).value q ≠ some (.other x) := by
    intro x
    rw [value_setDict]
    split
    · simp
    · exact hother x
  obtain ⟨s1, hs1, hok1, hblocked1, -, hvalue1, hclient1⟩ :=
    (h.ok.putList hl l').rpoplpushHandlePush (i := i) v hother0
  have hn1 : s1.NoEmpty {p} := by
    intro r hrp
    have hrp' : r ≠ p := hrp
    rw [hvalue1, value_setDict, if_neg hrp']
    split
    · simp
    · exact h.noEmpty r (notMem_empty r)
  rw [blocked_setDict] at hblocked1
  have hfree1 : (s1.client i).blocked = false := by
    rw [hclient1]
    exact (blocked_client_addReply _ i _).trans hi
  rw [hs1]
  refine ⟨_, rfl, ?_⟩
  split
  · refine ⟨⟨hok1.put none (by simp), hn1.put (by simp)⟩, ?_, hfree1⟩
    exact (blocked_setDict s1 p none).trans hblocked1
  next hne =>
  refine ⟨⟨hok1, fun r _ => ?_⟩, hblocked1, hfree1⟩
  by_cases hrp : r = p
  · rw [hrp]
    exact hne
  · exact hn1 r hrp

theorem setKey_other_keeps (p : DbKey) (v : Sds) :
    ∃ s', s.setKey p (.other v) = .ok s' ∧ Keeps i s s' := by
  refine ⟨s.setDict p (some (.other v)), ?_, (h.putOther p v).keeps_setDict hi⟩
  unfold setKey dbAdd dbOverwrite
  cases s.value p <;> rfl

theorem delGenericCommand_keeps (keys : List Sds) : Keeps i s (s.delGenericCommand i keys) := by
  unfold delGenericCommand
  apply Keeps.addReply
  -- Each round of the loop keeps the invariant.
  refine (Lib.foldl_rule (P := fun r : Server × Nat => Keeps i s r.1) (Q := fun _ _ => True)
    (h.keeps hi) fun r hr key _ => ⟨?_, trivial, fun _ _ => trivial⟩).1
  split
  · exact hr.trans ((hr.sound.delete _).keeps_setDict hr.free)
  · exact hr

theorem dbAdd_keeps {v} (hnone : s.value p = none) (hv : v ≠ .list []) :
    ∃ s', s.dbAdd p v = .ok s' ∧ Keeps i s s' := by
  obtain ⟨s', hs', hsound, hblocked, hclient⟩ := h.dbAdd hnone hv
  exact ⟨s', hs', hsound, hblocked, by rw [hclient]; exact hi⟩

theorem dbDelete_keeps (p : DbKey) : Keeps i s (s.dbDelete p) := (h.delete p).keeps_setDict hi

theorem renameGenericCommand_keeps (nx : Bool) (key newkey : Sds) :
    ∃ s', s.renameGenericCommand i nx key newkey = .ok s' ∧ Keeps i s s' := by
  unfold renameGenericCommand
  dsimp only
  generalize (s.client i).db = d
  split
  · exact h.replies hi _
  next o ho =>
  split
  · exact h.replies hi _
  split
  · exact h.replies hi _
  have hv : o ≠ .list [] := fun e => h.noEmpty (d, key) (notMem_empty _) (e ▸ ho)
  obtain ⟨s1, hs1, hk1, hnone1⟩ : ∃ s1 : Server,
      (if (s.value (d, newkey)).isSome then s.dbDelete (d, newkey) else s) = s1 ∧ Keeps i s s1 ∧
      s1.value (d, newkey) = none := by
    refine ⟨_, rfl, ?_⟩
    split
    · refine ⟨dbDelete_keeps h hi _, ?_⟩
      unfold dbDelete
      rw [value_setDict, if_pos rfl]
    · next hnone => exact ⟨h.keeps hi, by simpa using hnone⟩
  obtain ⟨s2, hs2, hk2⟩ := dbAdd_keeps hk1.sound hk1.free hnone1 hv
  rw [hs1, hs2]
  exact ⟨_, rfl, ((hk1.trans hk2).trans (dbDelete_keeps hk2.sound hk2.free _)).addReply _⟩

theorem moveCommand_keeps (key : Sds) (dbid : Option Int) :
    ∃ s', s.moveCommand i key dbid = .ok s' ∧ Keeps i s s' := by
  unfold moveCommand
  dsimp only
  split
  · exact h.replies hi _
  next dst hdst =>
  split
  · exact h.replies hi _
  split
  · exact h.replies hi _
  next o ho =>
  split
  · exact h.replies hi _
  next hnone =>
  have hv : o ≠ .list [] := fun e => h.noEmpty _ (notMem_empty _) (e ▸ ho)
  obtain ⟨s1, hs1, hk1⟩ := dbAdd_keeps h hi (p := (dst, key)) (by simpa using hnone) hv
  rw [hs1]
  exact ⟨_, rfl, (hk1.trans (dbDelete_keeps hk1.sound hk1.free _)).addReply _⟩

theorem restoreCommand_keeps (replace : Bool) (key : Sds) (hv : val ≠ .list []) :
    ∃ s', s.restoreCommand i replace key val = .ok s' ∧ Keeps i s s' := by
  unfold restoreCommand
  dsimp only
  generalize ((s.client i).db, key) = p
  split
  · exact h.replies hi _
  next hbusy =>
  obtain ⟨s1, hs1, hk1, hnone1⟩ : ∃ s1 : Server,
      (if replace then s.dbDelete p else s) = s1 ∧ Keeps i s s1 ∧ s1.value p = none := by
    refine ⟨_, rfl, ?_⟩
    split
    · refine ⟨dbDelete_keeps h hi _, ?_⟩
      unfold dbDelete
      rw [value_setDict, if_pos rfl]
    · next hreplace => exact ⟨h.keeps hi, by simpa [hreplace] using hbusy⟩
  obtain ⟨s2, hs2, hk2⟩ := dbAdd_keeps hk1.sound hk1.free hnone1 hv
  rw [hs1, hs2]
  exact ⟨_, rfl, (hk1.trans hk2).addReply _⟩

theorem sortStore_keeps (key : Sds)
    (hstore : sorted ≠ [] → (∃ v, s.value ((s.client i).db, key) = some (.other v)) →
      s.blocked ((s.client i).db, key) ≠ [] → ((s.client i).db, key) ∈ s.readyKeys) :
    ∃ s', s.sortStore i key sorted = .ok s' ∧ Keeps i s s' := by
  unfold sortStore
  dsimp only
  generalize ((s.client i).db, key) = p at hstore
  split
  · exact ⟨_, rfl, (dbDelete_keeps h hi p).addReply _⟩
  next hsorted =>
  have hv : Value.list sorted ≠ .list [] := fun e => hsorted (Value.list.inj e)
  unfold setKey
  rcases hvalue : s.value p with _ | val
  · obtain ⟨s1, hs1, hk1⟩ := dbAdd_keeps h hi hvalue hv
    rw [Option.isNone_none, if_pos rfl, hs1]
    exact ⟨_, rfl, hk1.addReply _⟩
  have hok : (s.setDict p (some (.list sorted))).Ok ∅ [] := by
    apply h.ok.put
    intro _ _ hb
    cases val with
    | list l => exact h.ok.mem_readyKeys hb hvalue
    | other v => exact hstore hsorted ⟨v, hvalue⟩ hb
  have hn : (s.setDict p (some (.list sorted))).NoEmpty ∅ :=
    (h.noEmpty.mono _).put fun e => hv (Option.some.inj e)
  have hover : s.dbOverwrite p (.list sorted) = .ok (s.setDict p (some (.list sorted))) := by
    unfold dbOverwrite
    rw [hvalue]
    rfl
  rw [Option.isNone_some, if_neg Bool.false_ne_true, hover]
  exact ⟨_, rfl, (Sound.keeps_setDict ⟨hok, hn⟩ hi).addReply _⟩

omit h hi in
theorem Tables.setDb (h : s.Tables) (hi : (s.client i).blocked = false) (d : Nat) :
    (s.modifyClient i fun c => { c with db := d }).Tables := by
  have hkeys := h.keys_eq_nil hi
  have hclient : ∀ j, ((s.modifyClient i fun c => { c with db := d }).client j).keys =
      (s.client j).keys ∧ ((s.modifyClient i fun c => { c with db := d }).client j).blocked =
      (s.client j).blocked := by
    intro j
    rw [client_modifyClient]
    split <;> exact ⟨rfl, rfl⟩
  refine ⟨fun j p => ?_, h.nodup_blocked, fun j => ?_, fun j => ?_, ?_⟩
  · rw [(hclient j).1]
    refine (h.mem_blocked j p).trans ?_
    rw [client_modifyClient]
    by_cases hj : j = i
    · simp [hj, hkeys]
    · rw [if_neg hj]
  · rw [(hclient j).1]
    exact h.nodup_keys j
  · rw [(hclient j).1, (hclient j).2]
    exact h.blocked_iff j
  obtain ⟨bs, hnodup, hlen, hmem⟩ := h.counted
  refine ⟨bs, hnodup, hlen, fun j => ?_⟩
  rw [(hclient j).2]
  exact hmem j

theorem selectCommand_keeps (id : Option Int) : Keeps i s (s.selectCommand i id) := by
  unfold selectCommand
  split
  · exact (h.keeps hi).addReply _
  split
  · exact (h.keeps hi).addReply _
  next d _ =>
  apply Keeps.addReply
  refine ⟨⟨⟨h.ok.toTables.setDb hi d, h.ok.flagged, h.ok.signalled⟩, h.noEmpty⟩, rfl, ?_⟩
  rw [client_modifyClient, if_pos rfl]
  exact hi

omit h hi

/-! ## `SWAPDB` -/

@[simp] theorem blocked_swapDicts (s : Server) (d₁ d₂ : Nat) :
    (s.swapDicts d₁ d₂).blocked = s.blocked := by
  funext q
  unfold blocked swapDicts
  dsimp only
  split
  · rfl
  · split <;> rfl

@[simp] theorem ready_swapDicts (s : Server) (d₁ d₂ : Nat) :
    (s.swapDicts d₁ d₂).ready = s.ready := by
  funext q
  unfold ready swapDicts
  dsimp only
  split
  · rfl
  · split <;> rfl

theorem value_swapDicts (s : Server) (d₁ d₂ : Nat) (q : DbKey) : (s.swapDicts d₁ d₂).value q =
      if q.1 = d₁ then s.value (d₂, q.2) else if q.1 = d₂ then s.value (d₁, q.2) else s.value q := by
  unfold value swapDicts
  dsimp only
  split
  · rfl
  · split <;> rfl

/-- One key of the scan: a list with blocked clients is signalled, and no other signal is lost. -/
theorem Ok.scanKey (h : s.Ok u []) (d : Nat) (key : Sds) :
    (scanKey d s key).Ok u [] ∧ (scanKey d s key).value = s.value ∧
      (scanKey d s key).blocked = s.blocked ∧ (scanKey d s key).client = s.client ∧
      (s.blocked (d, key) ≠ [] → ∀ l, s.value (d, key) = some (.list l) →
        (d, key) ∈ (scanKey d s key).readyKeys) ∧
      ∀ q ∈ s.readyKeys, q ∈ (scanKey d s key).readyKeys := by
  unfold Server.scanKey
  split
  · obtain ⟨hok, hmem⟩ := h.signalListAsReady (d, key)
    refine ⟨hok, value_signalListAsReady .., blocked_signalListAsReady ..,
      client_signalListAsReady .., fun hb _ _ => ?_, fun q hq => ?_⟩
    · exact (hmem hb).resolve_left not_mem_nil
    · exact mem_readyKeys_signalListAsReady s _ hq
  · next hnot => exact ⟨h, rfl, rfl, rfl, fun _ l hl => absurd hl (hnot l), fun _ hq => hq⟩

theorem mem_keys_of_blocked (hb : s.blocked (d, key) ≠ []) : key ∈ (s.db d).blockingKeys.keys := by
  rw [← AList.mem_keys, ← AList.lookup_isSome]
  by_contra hnone
  apply hb
  apply blocked_of_lookup_eq_none
  simpa using hnone

/-- After the scan every list of the database with blocked clients is signalled. -/
theorem Ok.scanDatabaseForReadyLists (h : s.Ok u []) (d : Nat) (order : List Sds) :
    (s.scanDatabaseForReadyLists d order).Ok {q ∈ u | q.1 ≠ d} [] ∧
      (s.scanDatabaseForReadyLists d order).value = s.value ∧
      (s.scanDatabaseForReadyLists d order).blocked = s.blocked ∧
      (s.scanDatabaseForReadyLists d order).client = s.client := by
  unfold Server.scanDatabaseForReadyLists
  dsimp only
  generalize hkeys : (if order.isPerm (s.db d).blockingKeys.keys then order
    else (s.db d).blockingKeys.keys) = keys
  obtain ⟨⟨hok, hvalue, hblocked, hclient⟩, hall, -⟩ := Lib.foldl_rule
    (P := fun s' : Server => s'.Ok u [] ∧ s'.value = s.value ∧ s'.blocked = s.blocked ∧
      s'.client = s.client)
    (Q := fun key s' => s.blocked (d, key) ≠ [] → ∀ l, s.value (d, key) = some (.list l) →
      (d, key) ∈ s'.readyKeys)
    (f := Server.scanKey d) (l := keys) (b := s) ⟨h, rfl, rfl, rfl⟩ (by
      rintro s' ⟨hok, hvalue, hblocked, hclient⟩ key -
      obtain ⟨hok', hvalue', hblocked', hclient', hsignal, hmem⟩ := hok.scanKey d key
      rw [hvalue, hblocked] at hsignal
      exact ⟨⟨hok', hvalue'.trans hvalue, hblocked'.trans hblocked, hclient'.trans hclient⟩, hsignal,
        fun _ hkey' hb l hl => hmem _ (hkey' hb l hl)⟩)
  refine ⟨{ hok with signalled := fun q hq hb l hl => ?_ }, hvalue, hblocked, hclient⟩
  by_cases hqu : q ∈ u
  · have hqd : q.1 = d := by
      by_contra hne
      exact hq ⟨hqu, hne⟩
    have hq' : q = (d, q.2) := Prod.ext hqd rfl
    rw [hblocked, hq'] at hb
    rw [hvalue, hq'] at hl
    have hmem : q.2 ∈ keys := by
      rw [← hkeys]
      split
      · next hperm => exact (isPerm_iff.mp hperm).mem_iff.mpr (mem_keys_of_blocked hb)
      · exact mem_keys_of_blocked hb
    rw [hq']
    exact .inr (hall q.2 hmem hb l hl)
  · exact hok.signalled q hqu hb l hl

theorem swapdbCommand_keeps (h : s.Sound) (hi : (s.client i).blocked = false)
    (id1 id2 : Option Int) (order1 order2 : List Sds) :
    Keeps i s (s.swapdbCommand i id1 id2 order1 order2) := by
  unfold swapdbCommand
  split
  · exact (h.keeps hi).addReply _
  · exact (h.keeps hi).addReply _
  split
  · exact (h.keeps hi).addReply _
  next d1 d2 _ =>
  apply Keeps.addReply
  split
  · exact h.keeps hi
  have h0 : (s.swapDicts d1 d2).Ok {q | q.1 = d1 ∨ q.1 = d2} [] := by
    refine ⟨h.ok.toTables.congr (blocked_swapDicts s d1 d2) rfl fun _ => ⟨rfl, rfl, rfl⟩,
      fun q hq => ?_, fun q hq hb l hl => ?_⟩
    · rw [ready_swapDicts] at hq
      exact h.ok.flagged q hq
    have hq : ¬ (q.1 = d1 ∨ q.1 = d2) := hq
    rw [not_or] at hq
    rw [blocked_swapDicts] at hb
    rw [value_swapDicts, if_neg hq.1, if_neg hq.2] at hl
    exact h.ok.signalled q (notMem_empty q) hb l hl
  have hn0 : (s.swapDicts d1 d2).NoEmpty ∅ := by
    intro q _
    rw [value_swapDicts]
    split
    · exact h.noEmpty _ (notMem_empty _)
    split <;> exact h.noEmpty _ (notMem_empty _)
  obtain ⟨h1, hvalue1, hblocked1, hclient1⟩ := h0.scanDatabaseForReadyLists d1 order1
  obtain ⟨h2, hvalue2, hblocked2, hclient2⟩ := h1.scanDatabaseForReadyLists d2 order2
  refine ⟨⟨h2.mono ?_, fun q hq => ?_⟩, ?_, ?_⟩
  · rintro q ⟨⟨hq | hq, hq1⟩, hq2⟩
    · exact absurd hq hq1
    · exact absurd hq hq2
  · rw [hvalue2, hvalue1]
    exact hn0 q hq
  · rw [hblocked2, hblocked1, blocked_swapDicts]
  rw [hclient2, hclient1]
  exact hi

/-! ## Commands that block -/

/-- The client `i` is at the end of the lists of the keys it blocks on. -/
structure Blocks (i : Nat) (s s' : Server) : Prop where
  sound : s'.Sound
  order : ∀ p, (s'.blocked p).Sublist (s.blocked p ++ [i])

/-- The client `i` has been put at the end of the lists of `keys`, but for those it was in before,
and waits for `ks`. -/
structure Listed (s s' : Server) (i : Nat) (keys ks : List Sds) : Prop where
  value : s'.value = s.value
  ready : s'.ready = s.ready
  readyKeys : s'.readyKeys = s.readyKeys
  count : s'.bpopBlockedClients = s.bpopBlockedClients
  client : ∀ j, s'.client j = if j = i then { s.client j with keys := ks } else s.client j
  nodup : ks.Nodup
  mem : ∀ key, key ∈ ks ↔ key ∈ (s.client i).keys ∨ key ∈ keys
  blocked : ∀ q, s'.blocked q =
    if q.1 = (s.client i).db ∧ q.2 ∈ keys ∧ q.2 ∉ (s.client i).keys then s.blocked q ++ [i]
    else s.blocked q

theorem Listed.client_self (h : Listed s s' i keys ks) : s'.client i = { s.client i with keys := ks } :=
  (h.client i).trans (if_pos rfl)

theorem Listed.nil (hnodup : (s.client i).keys.Nodup) : Listed s s i [] (s.client i).keys := by
  refine ⟨rfl, rfl, rfl, rfl, fun j => ?_, hnodup, by simp, by simp⟩
  split
  · next hj => rw [hj]
  · rfl

theorem blockForKey_listed (hnodup : (s.client i).keys.Nodup) (key : Sds) :
    ∃ ks, Listed s (blockForKey i s key) i [key] ks := by
  unfold blockForKey
  split
  · next hkey =>
    have h := Listed.nil hnodup
    refine ⟨(s.client i).keys, { h with mem := fun key' => ?_, blocked := fun q => ?_ }⟩
    · rw [List.mem_singleton]
      grind
    · grind
  next hkey =>
  refine ⟨(s.client i).keys ++ [key], value_setBlocked .., ready_setBlocked .., rfl, rfl,
    fun j => ?_, ?_, fun key' => mem_append, fun q => ?_⟩
  · show (if j = i then { s.client j with keys := (s.client j).keys ++ [key] } else s.client j) = _
    split
    · next hj => rw [hj]
    · rfl
  · rw [← concat_eq_append]
    exact hnodup.concat hkey
  show (Server.setBlocked _ _ _).blocked q = _
  rw [blocked_setBlocked]
  by_cases hq : q = ((s.client i).db, key)
  · subst hq
    simp [hkey]
  have hne : ¬ (q.1 = (s.client i).db ∧ q.2 = key) := fun h => hq (Prod.ext h.1 h.2)
  rw [if_neg hq, if_neg fun h => hne ⟨h.1, mem_singleton.mp h.2.1⟩]
  rfl

theorem Listed.cons {s₁ ks₁}
    (h₁ : Listed s s₁ i [key] ks₁) (h : Listed s₁ s' i keys ks) : Listed s s' i (key :: keys) ks where
  value := h.value.trans h₁.value
  ready := h.ready.trans h₁.ready
  readyKeys := h.readyKeys.trans h₁.readyKeys
  count := h.count.trans h₁.count
  client j := by
    rw [h.client, h₁.client]
    split <;> rfl
  nodup := h.nodup
  mem key' := by
    rw [h.mem, h₁.client_self, h₁.mem, List.mem_singleton, mem_cons, or_assoc]
  blocked q := by
    have hmem := h₁.mem q.2
    rw [List.mem_singleton] at hmem
    rw [h.blocked, h₁.blocked, h₁.client_self]
    grind

theorem foldl_blockForKey (hnodup : (s.client i).keys.Nodup) (keys : List Sds) :
    ∃ ks, Listed s (keys.foldl (blockForKey i) s) i keys ks := by
  induction keys generalizing s with
  | nil => exact ⟨_, .nil hnodup⟩
  | cons key keys ih =>
    obtain ⟨ks1, h1⟩ := blockForKey_listed hnodup key
    have hnodup1 : ((blockForKey i s key).client i).keys.Nodup := by
      rw [h1.client_self]
      exact h1.nodup
    obtain ⟨ks, h⟩ := ih hnodup1
    exact ⟨ks, h1.cons h⟩

/-- What `blockForKeys` changes: the client is blocked on the keys, and is last in their lists. -/
structure NowBlocked (s s' : Server) (i : Nat) (keys ks : List Sds) (target : Option Sds) : Prop where
  value : s'.value = s.value
  ready : s'.ready = s.ready
  readyKeys : s'.readyKeys = s.readyKeys
  count : s'.bpopBlockedClients = s.bpopBlockedClients + 1
  nodup : ks.Nodup
  mem : ∀ key, key ∈ ks ↔ key ∈ keys
  client : ∀ j, s'.client j = if j = i then
    { s.client j with target := target, keys := ks, blocked := true } else s.client j
  blocked : ∀ q, s'.blocked q =
    if q.1 = (s.client i).db ∧ q.2 ∈ keys then s.blocked q ++ [i] else s.blocked q

theorem blockForKeys_nowBlocked (hfree : (s.client i).keys = []) (keys : List Sds)
    (target : Option Sds) : ∃ ks, NowBlocked s (s.blockForKeys i keys target) i keys ks target := by
  unfold blockForKeys
  generalize hs0 : (s.modifyClient i fun c => { c with target := target }) = s0
  have hclient0 : ∀ j, s0.client j =
      if j = i then { s.client j with target := target } else s.client j := by
    intro j
    rw [← hs0]
    rfl
  have hi0 : s0.client i = { s.client i with target := target } := (hclient0 i).trans (if_pos rfl)
  have hkeys0 : (s0.client i).keys = [] := by
    rw [hi0]
    exact hfree
  obtain ⟨ks, h⟩ := foldl_blockForKey (s := s0) (i := i) (hkeys0 ▸ nodup_nil) keys
  generalize keys.foldl (blockForKey i) s0 = s1 at h ⊢
  refine ⟨ks, ?_, ?_, ?_, ?_, h.nodup, fun key => ?_, fun j => ?_, fun q => ?_⟩
  · exact h.value.trans (hs0 ▸ rfl)
  · exact h.ready.trans (hs0 ▸ rfl)
  · exact h.readyKeys.trans (hs0 ▸ rfl)
  · exact congrArg (· + 1) (h.count.trans (hs0 ▸ rfl))
  · rw [h.mem, hkeys0]
    simp
  · show (if j = i then { s1.client j with blocked := true } else s1.client j) = _
    rw [h.client, hclient0]
    by_cases hj : j = i
    · rw [if_pos hj, if_pos hj, if_pos hj, if_pos hj]
    · rw [if_neg hj, if_neg hj, if_neg hj, if_neg hj]
  show s1.blocked q = _
  rw [h.blocked, hkeys0, hi0, ← hs0]
  simp
  rfl

theorem NowBlocked.tables
    (hb : NowBlocked s s' i keys ks target) (h : s.Tables) (hi : (s.client i).blocked = false)
    (hkeys : keys ≠ []) : s'.Tables := by
  have hnotin : ∀ q, i ∉ s.blocked q := by
    intro q hq
    rw [h.mem_blocked, h.keys_eq_nil hi] at hq
    exact absurd hq.2 not_mem_nil
  refine ⟨fun j q => ?_, fun q => ?_, fun j => ?_, fun j => ?_, ?_⟩
  · rw [hb.blocked, hb.client]
    by_cases hj : j = i
    · subst hj
      rw [if_pos rfl]
      rw [hb.mem]
      by_cases hq : q.1 = (s.client j).db ∧ q.2 ∈ keys
      · simp [hq]
      rw [if_neg hq]
      exact iff_of_false (hnotin q) fun hq' => hq ⟨hq'.1.symm, hq'.2⟩
    rw [if_neg hj, ← h.mem_blocked j q]
    split
    · simp [hj]
    · rfl
  · rw [hb.blocked]
    split
    · rw [← concat_eq_append]
      exact (h.nodup_blocked q).concat (hnotin q)
    · exact h.nodup_blocked q
  · rw [hb.client]
    split
    · exact hb.nodup
    · exact h.nodup_keys j
  · rw [hb.client]
    split
    · obtain ⟨key, hkey⟩ := exists_mem_of_ne_nil keys hkeys
      exact iff_of_true rfl (ne_nil_of_mem ((hb.mem key).mpr hkey))
    · exact h.blocked_iff j
  obtain ⟨bs, hnodup, hlen, hbs⟩ := h.counted
  have hibs : i ∉ bs := by
    rw [hbs, hi]
    exact Bool.false_ne_true
  refine ⟨i :: bs, nodup_cons.mpr ⟨hibs, hnodup⟩, ?_, fun j => ?_⟩
  · rw [length_cons, hlen, hb.count]
  rw [mem_cons, hbs, hb.client]
  by_cases hj : j = i <;> simp [hj]

theorem blockForKeys_blocks (h : s.Sound) (hi : (s.client i).blocked = false)
    (target : Option Sds) (hkeys : keys ≠ [])
    (hnone : ∀ key ∈ keys, s.value ((s.client i).db, key) = none) :
    Blocks i s (s.blockForKeys i keys target) := by
  obtain ⟨ks, hb⟩ := blockForKeys_nowBlocked (h.ok.toTables.keys_eq_nil hi) keys target
  refine ⟨⟨⟨hb.tables h.ok.toTables hi hkeys, fun q hq => ?_, fun q hqu hq l hl => ?_⟩,
    fun q hq => ?_⟩, fun q => ?_⟩
  · rw [hb.ready] at hq
    rw [hb.readyKeys]
    exact h.ok.flagged q hq
  · rw [hb.value] at hl
    rw [hb.readyKeys]
    rw [hb.blocked] at hq
    split at hq
    · next hkey =>
      have hnone : s.value q = none := by
        rw [← hnone q.2 hkey.2, ← hkey.1]
      rw [hnone] at hl
      cases hl
    · exact h.ok.signalled q hqu hq l hl
  · rw [hb.value]
    exact h.noEmpty q hq
  rw [hb.blocked]
  split
  · exact List.Sublist.refl _
  · exact sublist_append_left _ _

theorem firstKey_eq_none (hn : s.NoEmpty ∅)
    (h : s.firstKey d keys = none) : ∀ key ∈ keys, s.value (d, key) = none := by
  induction keys with
  | nil => simp
  | cons key keys ih =>
    unfold firstKey at h
    split at h
    · next hnone =>
      intro key' hkey'
      rcases mem_cons.mp hkey' with rfl | hkey'
      · exact hnone
      · exact ih h key' hkey'
    · next hempty => exact absurd hempty (hn _ (notMem_empty _))
    · cases h

theorem firstKey_eq_some {v}
    (h : s.firstKey d keys = some (key, v)) : s.value (d, key) = some v ∧ v ≠ .list [] := by
  induction keys with
  | nil => cases h
  | cons key' keys ih =>
    unfold firstKey at h
    split at h
    · exact ih h
    · exact ih h
    next v' hne hv' =>
    cases h
    exact ⟨hv', hne⟩

/-- A command either leaves the client unblocked or blocks it; in a transaction it does not
block. -/
def Returns (i : Nat) (multi : Bool) (s s' : Server) : Prop :=
  Keeps i s s' ∨ multi = false ∧ Blocks i s s'

theorem blockingPopGenericCommand_returns (h : s.Sound) (hi : (s.client i).blocked = false)
    (multi head : Bool) (hkeys : keys ≠ []) :
    ∃ s', s.blockingPopGenericCommand i multi head keys = .ok s' ∧ Returns i multi s s' := by
  unfold blockingPopGenericCommand
  dsimp only
  split
  · exact ⟨_, rfl, .inl ((h.keeps hi).addReply _)⟩
  · next key l hfirst =>
    obtain ⟨hl, hne⟩ := firstKey_eq_some hfirst
    rcases hpop : listTypePop l head with _ | r
    · exact absurd (congrArg Value.list (listTypePop_eq_none.mp hpop)) hne
    obtain ⟨v, l'⟩ := r
    have hk : Keeps i s (s.addReply i (.pair key v)) := (h.keeps hi).addReply _
    exact ⟨_, rfl, .inl (hk.trans (putRest_keeps hk.sound hk.free hl l'))⟩
  next hfirst =>
  cases multi with
  | true => exact ⟨_, rfl, .inl ((h.keeps hi).addReply _)⟩
  | false =>
    exact ⟨_, rfl, .inr ⟨rfl, blockForKeys_blocks h hi none hkeys
      (firstKey_eq_none h.noEmpty hfirst)⟩⟩

theorem brpoplpushCommand_returns (h : s.Sound) (hi : (s.client i).blocked = false) (multi : Bool)
    (src dst : Sds) :
    ∃ s', s.brpoplpushCommand i multi src dst = .ok s' ∧ Returns i multi s s' := by
  unfold brpoplpushCommand
  split
  · next hnone =>
    cases multi with
    | true => exact ⟨_, rfl, .inl ((h.keeps hi).addReply _)⟩
    | false =>
      refine ⟨_, rfl, .inr ⟨rfl, blockForKeys_blocks h hi _ (by simp) fun key hkey => ?_⟩⟩
      rw [mem_singleton.mp hkey]
      exact hnone
  · exact ⟨_, rfl, .inl ((h.keeps hi).addReply _)⟩
  · next hempty => exact absurd hempty (h.noEmpty _ (notMem_empty _))
  obtain ⟨s', hs', hk⟩ := rpoplpushCommand_keeps h hi src dst
  exact ⟨s', hs', .inl hk⟩

end Server

/-! ## Runs -/

/-- `SORT` with `STORE` does not put a list in place of another object on a key with blocked clients
that is not signalled, and `RESTORE` does not create an empty list. -/
def Command.Signals (s : Server) (i : Nat) : Command → Prop
  | .sortStore key sorted =>
    sorted ≠ [] → (∃ v, s.value ((s.client i).db, key) = some (.other v)) →
      s.blocked ((s.client i).db, key) ≠ [] → ((s.client i).db, key) ∈ s.readyKeys
  | .restore _ _ val => val ≠ .list []
  | _ => True

namespace Server

variable {s s' : Server} {i : Nat}

theorem call_returns (h : s.Sound) (hi : (s.client i).blocked = false) (multi : Bool)
    (hc : c.Signals s i) : ∃ s', s.call i multi c = .ok s' ∧ Returns i multi s s' := by
  have keeps {x : Except Fault Server} (hx : ∃ s', x = .ok s' ∧ Keeps i s s') :
      ∃ s', x = .ok s' ∧ Returns i multi s s' := by
    obtain ⟨s', hs', hk⟩ := hx
    exact ⟨s', hs', .inl hk⟩
  cases c with
  | push head key values => exact keeps (pushGenericCommand_keeps h hi head key values)
  | pop head key => exact ⟨_, rfl, .inl (popGenericCommand_keeps h hi head key)⟩
  | rpoplpush src dst => exact keeps (rpoplpushCommand_keeps h hi src dst)
  | bpop head key keys => exact blockingPopGenericCommand_returns h hi multi head (by simp)
  | brpoplpush src dst => exact brpoplpushCommand_returns h hi multi src dst
  | set key v =>
    obtain ⟨s', hs', hk⟩ := setKey_other_keeps h hi ((s.client i).db, key) v
    refine ⟨s'.addReply i .ok, ?_, .inl (hk.addReply _)⟩
    show s.setCommand i key v = _
    unfold setCommand
    rw [hs']
    rfl
  | del keys => exact ⟨_, rfl, .inl (delGenericCommand_keeps h hi keys)⟩
  | rename nx key newkey => exact keeps (renameGenericCommand_keeps h hi nx key newkey)
  | move key dbid => exact keeps (moveCommand_keeps h hi key dbid)
  | swapdb id1 id2 order1 order2 =>
    exact ⟨_, rfl, .inl (swapdbCommand_keeps h hi id1 id2 order1 order2)⟩
  | select id => exact ⟨_, rfl, .inl (selectCommand_keeps h hi id)⟩
  | sortStore key sorted => exact keeps (sortStore_keeps h hi key hc)
  | restore replace key val => exact keeps (restoreCommand_keeps h hi replace key hc)

def QueueSignals (i : Nat) : Server → List Command → Prop
  | _, [] => True
  | s, c :: cmds => c.Signals s i ∧ ∀ s', s.call i true c = .ok s' → QueueSignals i s' cmds

theorem queue_keeps (h : s.Sound) (hi : (s.client i).blocked = false)
    (hq : QueueSignals i s cmds) : ∃ s', cmds.foldlM (call i true) s = .ok s' ∧ Keeps i s s' := by
  induction cmds generalizing s with
  | nil => exact ⟨s, rfl, h.keeps hi⟩
  | cons c cmds ih =>
    obtain ⟨s1, hs1, hk1 | ⟨hmulti, -⟩⟩ := call_returns h hi true hq.1
    · obtain ⟨s2, hs2, hk2⟩ := ih hk1.sound hk1.free (hq.2 s1 hs1)
      refine ⟨s2, ?_, hk1.trans hk2⟩
      rw [foldlM_cons, hs1]
      exact hs2
    · cases hmulti

end Server

def Event.client : Event → Nat
  | .command i _ => i
  | .exec i _ => i
  | .timeout i => i

def Event.Signals (s : Server) : Event → Prop
  | .command i c => (s.client i).blocked = false →
      c.Signals (s.modifyClient i fun c' => { c' with lastBlpop := c.isBlpop }) i
  | .exec i cmds => (s.client i).blocked = false →
      Server.QueueSignals i (s.modifyClient i fun c => { c with lastBlpop := false }) cmds
  | .timeout _ => True

namespace Server

variable {s : Server} {e : Event}

theorem execute_spec (h : s.Sound) (he : e.Signals s) : ∃ s', s.execute e = .ok s' ∧ s'.Sound ∧
      ∀ p, (s'.blocked p).Sublist (s.blocked p ++ [e.client]) := by
  have hsame : ∀ {i : Nat} (p : DbKey), (s.blocked p).Sublist (s.blocked p ++ [i]) :=
    fun p => sublist_append_left _ _
  have hlast : ∀ (i : Nat) (b : Bool), (s.modifyClient i fun c => { c with lastBlpop := b }).Sound :=
    fun i b => h.modifyClient fun _ => ⟨rfl, rfl, rfl⟩
  have hfree : ∀ (i : Nat) (b : Bool), (s.client i).blocked = false →
      ((s.modifyClient i fun c => { c with lastBlpop := b }).client i).blocked = false := by
    intro i b hi
    rw [client_modifyClient, if_pos rfl]
    exact hi
  cases e with
  | command i c =>
    by_cases hb : (s.client i).blocked = true
    · exact ⟨s, if_pos hb, h, hsame⟩
    have hi : (s.client i).blocked = false := Bool.eq_false_iff.mpr hb
    obtain ⟨s', hs', hk | ⟨-, hk⟩⟩ := call_returns (hlast i _) (hfree i _ hi) false (he hi)
    · refine ⟨s', (if_neg hb).trans hs', hk.sound, fun p => ?_⟩
      rw [hk.blocked]
      exact hsame p
    · exact ⟨s', (if_neg hb).trans hs', hk.sound, hk.order⟩
  | exec i cmds =>
    by_cases hb : (s.client i).blocked = true
    · exact ⟨s, if_pos hb, h, hsame⟩
    have hi : (s.client i).blocked = false := Bool.eq_false_iff.mpr hb
    obtain ⟨s', hs', hk⟩ := queue_keeps (hlast i _) (hfree i _ hi) (he hi)
    refine ⟨s', (if_neg hb).trans hs', hk.sound, fun p => ?_⟩
    rw [hk.blocked]
    exact hsame p
  | timeout i =>
    by_cases hb : (s.client i).blocked = true
    · have h0 := h.addReply (i := i) .nullmultibulk
      obtain ⟨s', hs', htables, hvalue, hready, hreadyKeys, -, hblocked, -⟩ :=
        h0.ok.toTables.unblockClient ((blocked_client_addReply s i _).trans hb)
      refine ⟨s', (if_pos hb).trans hs', ⟨⟨htables, fun q hq => ?_, fun q hqu hq l hl => ?_⟩,
        fun q hq => ?_⟩, fun p => ?_⟩
      · rw [hready] at hq
        rw [hreadyKeys]
        exact h.ok.flagged q hq
      · rw [hvalue] at hl
        rw [hreadyKeys]
        refine h.ok.signalled q hqu (fun hnil => hq ?_) l hl
        rw [hblocked]
        show (s.blocked q).erase i = []
        rw [hnil]
        rfl
      · rw [hvalue]
        exact h.noEmpty q hq
      rw [hblocked]
      exact erase_sublist.trans (hsame p)
    · exact ⟨s, if_neg hb, h, hsame⟩

def RunSignals : Server → List Event → Prop
  | _, [] => True
  | s, e :: events => e.Signals s ∧ ∀ s', s.step e = .ok s' → RunSignals s' events

theorem Sound.step (h : s.Sound) (he : e.Signals s) :
    ∃ s₁ s₂, s.execute e = .ok s₁ ∧ s₁.handleClientsBlockedOnLists = .ok s₂ ∧ s₂.Sound ∧
      (∀ p, (s₁.blocked p).Sublist (s.blocked p ++ [e.client])) ∧
      (∀ p, s₂.blocked p ≠ [] → ∀ l, s₂.value p ≠ some (.list l)) ∧
      Relation.ReflTransGen Waiting.Service s₁.waiting s₂.waiting := by
  obtain ⟨s₁, hs1, h1, horder⟩ := execute_spec h he
  obtain ⟨s₂, hs2, hok2, hn2, -, hdone, hservices⟩ := handleClientsBlockedOnLists_spec h1.ok h1.noEmpty
  exact ⟨s₁, s₂, hs1, hs2, ⟨hok2, hn2⟩, horder, hdone, hservices⟩

theorem Sound.run (h : s.Sound)
    (hr : s.RunSignals (events ++ [e])) : ∃ s', s.run events = .ok s' ∧ s'.Sound ∧ e.Signals s' := by
  induction events generalizing s with
  | nil => exact ⟨s, rfl, h, hr.1⟩
  | cons e0 events ih =>
    obtain ⟨s1, s2, hs1, hs2, h2, -⟩ := h.step hr.1
    have hstep : s.step e0 = .ok s2 := by
      unfold Server.step
      rw [hs1]
      exact hs2
    obtain ⟨s', hs', h', he⟩ := ih h2 (hr.2 s2 hstep)
    refine ⟨s', ?_, h', he⟩
    unfold Server.run
    rw [foldlM_cons, hstep]
    exact hs'

theorem Sound.start (dbnum : Nat) : (Server.start dbnum).Sound := by
  refine ⟨⟨⟨fun i p => ?_, fun p => nodup_nil, fun i => nodup_nil, fun i => ?_, [], ?_⟩,
    fun q hq => ?_, fun q _ _ l hl => ?_⟩, fun q _ hl => ?_⟩
  · show i ∈ [] ↔ _ ∧ p.2 ∈ []
    simp
  · show false = true ↔ [] ≠ []
    simp
  · exact ⟨nodup_nil, rfl, fun i => by simp [Server.start]⟩
  · cases hq
  · cases hl
  · cases hl

end Server

/-- In every run whose commands all signal, after every event and the following
`handleClientsBlockedOnLists`, which ends: no key with a blocked client holds an element. A client
that blocks is the last in the list of the key, and the clients were served one after the other,
each as the first in the list of a key, with an element from the end it asked for: the element was
sent to it, or moved to the list it named, or left in its list if that key was no list. -/
theorem blocked_pops_served (dbnum : Nat) (events : List Event) (e : Event)
    (h : (Server.start dbnum).RunSignals (events ++ [e])) :
    ∃ s s₁ s₂, (Server.start dbnum).run events = .ok s ∧ s.execute e = .ok s₁ ∧
      s₁.handleClientsBlockedOnLists = .ok s₂ ∧
      (∀ p, s₂.blocked p ≠ [] → s₂.contents p = []) ∧
      (∀ p, (s₁.blocked p).Sublist (s.blocked p ++ [e.client])) ∧
      Relation.ReflTransGen Waiting.Service s₁.waiting s₂.waiting := by
  obtain ⟨s, hs, hsound, he⟩ := (Server.Sound.start dbnum).run h
  obtain ⟨s₁, s₂, hs1, hs2, -, horder, hdone, hservices⟩ := hsound.step he
  refine ⟨s, s₁, s₂, hs, hs1, hs2, fun p hp => ?_, horder, hservices⟩
  unfold Server.contents
  split
  · next l hl => exact absurd hl (hdone p hp l)
  · rfl

/-- Three clients wait: two for one list, one of them with a target on which the third waits. A push
serves all of them. -/
theorem blocked_pops_served_chain :
    ∃ s s₁ s₂, (Server.start 16).run [.command 0 (.brpoplpush ['k'] ['d']),
        .command 1 (.bpop true ['d'] []), .command 2 (.bpop false ['k'] [])] = .ok s ∧
      s.execute (.command 3 (.push true ['k'] [['1'], ['2']])) = .ok s₁ ∧
      s₁.handleClientsBlockedOnLists = .ok s₂ ∧
      (∀ p, s₂.blocked p ≠ [] → s₂.contents p = []) ∧
      (∀ p, (s₁.blocked p).Sublist (s.blocked p ++ [3])) ∧
      Relation.ReflTransGen Waiting.Service s₁.waiting s₂.waiting := by
  apply blocked_pops_served
  exact ⟨fun _ => trivial, fun _ _ => ⟨fun _ => trivial, fun _ _ => ⟨fun _ => trivial,
    fun _ _ => ⟨fun _ => trivial, fun _ _ => trivial⟩⟩⟩⟩

/-- A client waits for a key, the key gets a string, and `SORT` stores a list in it: the client
waits on, although the key holds a list with two elements. -/
theorem blocked_pop_starves :
    ∃ s, (Server.start 16).run [.command 0 (.bpop true ['k'] []), .command 1 (.set ['k'] ['x']),
        .command 1 (.sortStore ['k'] [['1'], ['2']])] = .ok s ∧
      s.blocked (0, ['k']) = [0] ∧ s.contents (0, ['k']) = [['1'], ['2']] := by
  decide

end UfsRedis.Blocking
