import UfsRedis.Cluster.Slots

/-!
# Who a slot is bound to

`processHeader_ok` says what a header of another known master does to the table: the sender takes
the slots it claims with a newer epoch. By `run_rule` this holds along a run, and so a slot is bound
to the claimant with the newest epoch.
-/

namespace UfsRedis.Cluster.ClusterState

open List Option

def BitsAgree (c : ClusterState) : Prop :=
  ∀ n j, j < clusterSlots → ((c.nodes n).slots j = true ↔ c.slots j = some n)

/-- What holds of the observer between two packets. A slave has a master, and no slots. -/
structure Consistent (c : ClusterState) : Prop where
  bits : c.BitsAgree
  master : ∃ m, c.curmaster = some m
  slave : (c.nodes c.myself).master = false → ∀ j < clusterSlots, c.slots j ≠ some c.myself

/-- The sender of a header takes the slot `j`. -/
def Takes (c : ClusterState) (sender epoch : Nat) (slots : Nat → Bool) (j : Nat) : Prop :=
  slots j = true ∧ c.importingSlotsFrom j = none ∧
    ∀ n, c.slots j = some n → n ≠ sender → (c.nodes n).configEpoch < epoch

variable {slots : Nat → Bool} {h : Header}

/-! ## One slot -/

section

variable {c d : ClusterState} {sender epoch j n : Nat} {P : Nat → Prop}

/-- `c'` is `c` with the slots `P` bound to `n`. -/
structure Rebinds (c : ClusterState) (n : Nat) (P : Nat → Prop) (c' : ClusterState) : Prop where
  bits : c'.BitsAgree
  bound : ∀ j < clusterSlots, P j → c'.slots j = some n
  others : ∀ j < clusterSlots, ¬ P j → c'.slots j = c.slots j
  myself : c'.myself = c.myself
  known : c'.known = c.known
  importing : c'.importingSlotsFrom = c.importingSlotsFrom
  epoch : ∀ m, (c'.nodes m).configEpoch = (c.nodes m).configEpoch
  role : ∀ m, (c'.nodes m).master = (c.nodes m).master
  slaveof : ∀ m, (c'.nodes m).slaveof = (c.nodes m).slaveof

theorem Rebinds.self (h : c.BitsAgree) (n : Nat) : Rebinds c n (fun _ => False) c :=
  ⟨h, fun _ _ => False.elim, fun _ _ _ => rfl, rfl, rfl, rfl, fun _ => rfl, fun _ => rfl,
    fun _ => rfl⟩

theorem setNode_field {β : Type} (g : ClusterNode → β)
    (hf : ∀ x, g (f x) = g x) : g ((c.setNode n f).nodes m) = g (c.nodes m) := by
  simp only [setNode]
  split
  · exact hf _
  · rfl

theorem slots_writeSlotBit (c : ClusterState) (n slot : Nat) (b : Bool) (m i : Nat) :
    ((c.writeSlotBit n slot b).nodes m).slots i =
      if m = n ∧ i = slot then b else (c.nodes m).slots i := by
  by_cases hm : m = n <;> by_cases hi : i = slot <;> simp [writeSlotBit, setNode, hm, hi]

theorem exists_bound (h : c.BitsAgree) (n : Nat) (hj : j < clusterSlots) :
    ∃ d, c.clusterDelSlot j = .ok d ∧ Rebinds c n (· = j) (d.clusterAddSlot n j) := by
  rcases hs : c.slots j with _ | k
  · have hbit : ∀ m, (c.nodes m).slots j = false := fun m => by
      rw [← Bool.not_eq_true, h m j hj, hs]
      exact some_ne_none m ∘ Eq.symm
    refine ⟨c, by rw [clusterDelSlot, hs], ?_⟩
    rw [clusterAddSlot, hs]
    refine ⟨fun m i hi => ?_, ?_, ?_, rfl, rfl, rfl, fun m => ?_, fun m => ?_, fun m => ?_⟩
    · change ((c.writeSlotBit n j true).nodes m).slots i = true ↔
        (if i = j then some n else c.slots i) = some m
      rw [slots_writeSlotBit]
      by_cases hij : i = j
      · subst hij
        by_cases hm : m = n
        · simp [hm]
        · simp [hm, Ne.symm hm, hbit]
      · simpa [hij] using h m i hi
    · rintro i - rfl
      exact if_pos rfl
    · exact fun i _ hi => if_neg hi
    all_goals
      simp only [setSlot, clusterNodeSetSlotBit, writeSlotBit, setNode]
      split <;> rfl
  have hbit : ∀ m, (c.nodes m).slots j = true ↔ m = k := fun m => by
    rw [h m j hj, hs, some.injEq, eq_comm]
  refine ⟨_, by rw [clusterDelSlot, hs]; exact if_pos ((hbit k).mpr rfl), ?_⟩
  have hnone : ((c.clusterNodeClearSlotBit k j).setSlot j none).slots j = none := if_pos rfl
  rw [clusterAddSlot, hnone]
  refine ⟨fun m i hi => ?_, ?_, ?_, rfl, rfl, rfl, fun m => ?_, fun m => ?_, fun m => ?_⟩
  · change ((((c.writeSlotBit k j false).setSlot j none).writeSlotBit n j true).nodes m).slots i =
      true ↔ (if i = j then some n else if i = j then none else c.slots i) = some m
    rw [slots_writeSlotBit]
    change (if m = n ∧ i = j then true else ((c.writeSlotBit k j false).nodes m).slots i) = true ↔ _
    rw [slots_writeSlotBit]
    by_cases hij : i = j
    · subst hij
      by_cases hm : m = n
      · simp [hm]
      · simp [hm, Ne.symm hm, hbit]
    · simpa [hij] using h m i hi
  · rintro i - rfl
    exact if_pos rfl
  · intro i _ hi
    simp [setSlot, clusterNodeSetSlotBit, clusterNodeClearSlotBit, writeSlotBit, setNode, hi]
  all_goals
    simp only [setSlot, clusterNodeSetSlotBit, clusterNodeClearSlotBit, writeSlotBit, setNode]
    repeat' split
    all_goals rfl

theorem Rebinds.congr (h : Rebinds c n P d) (hb : ∀ j < clusterSlots, Q j → P j ∨ c.slots j = some n)
    (ho : ∀ j, P j → Q j) : Rebinds c n Q d := by
  refine { h with bound := fun j hj hq => ?_, others := fun j hj hq => h.others j hj (mt (ho j) hq) }
  by_cases hp : P j
  · exact h.bound j hj hp
  rw [h.others j hj hp]
  exact (hb j hj hq).resolve_left hp

theorem Rebinds.bind (h : Rebinds c n P d) (h' : Rebinds d n (· = j) c') :
    Rebinds c n (fun i => P i ∨ i = j) c' where
  bits := h'.bits
  bound i hi hp := by
    by_cases hij : i = j
    · exact h'.bound i hi hij
    rw [h'.others i hi hij]
    exact h.bound i hi (hp.resolve_right hij)
  others i hi hp := by
    rw [not_or] at hp
    rw [h'.others i hi hp.2, h.others i hi hp.1]
  myself := h'.myself.trans h.myself
  known := h'.known.trans h.known
  importing := h'.importing.trans h.importing
  epoch m := (h'.epoch m).trans (h.epoch m)
  role m := (h'.role m).trans (h.role m)
  slaveof m := (h'.slaveof m).trans (h.slaveof m)

theorem rebindSlot_ok (epoch : Nat) (slots : Nat → Bool) (cur : Option Nat)
    (h : Rebinds c sender P r.state) (hj : j < clusterSlots) (hP : ¬ P j) :
    ∃ r', rebindSlot sender epoch slots cur r j = .ok r' ∧
      Rebinds c sender (fun i => P i ∨ (i = j ∧ c.Takes sender epoch slots j)) r'.state := by
  have hslot := h.others j hj hP
  -- the turns that leave the slot alone
  have hkeep : (c.Takes sender epoch slots j → c.slots j = some sender) →
      Rebinds c sender (fun i => P i ∨ (i = j ∧ c.Takes sender epoch slots j)) r.state := by
    intro ht
    refine h.congr (fun i _ hi => hi.imp_right ?_) fun i hi => .inl hi
    rintro ⟨rfl, htake⟩
    exact ht htake
  simp only [rebindSlot]
  by_cases hclaim : slots j = true
  · rw [if_neg (by simp [hclaim]), hslot, h.importing]
    by_cases hown : c.slots j = some sender
    · exact ⟨r, if_pos hown, hkeep fun _ => hown⟩
    rw [if_neg hown]
    cases himp : c.importingSlotsFrom j with
    | some m =>
      refine ⟨r, if_pos rfl, hkeep fun ht => ?_⟩
      rw [ht.2.1] at himp
      cases himp
    | none =>
      rw [if_neg (by simp)]
      by_cases hold : r.state.older j epoch = true
      · obtain ⟨d, hdel, hd⟩ := exists_bound h.bits sender hj
        rw [if_pos hold, hdel, ok_bind]
        refine ⟨_, rfl, (h.bind hd).congr (fun i _ hi => .inl (hi.imp_right And.left)) ?_⟩
        rintro i (hi | rfl)
        · exact .inl hi
        refine .inr ⟨rfl, hclaim, himp, fun m hm _ => ?_⟩
        rw [older, hslot, hm] at hold
        simpa [h.epoch] using hold
      refine ⟨r, if_neg hold, hkeep fun ht => ?_⟩
      refine absurd ?_ hold
      rw [older, hslot]
      rcases hm : c.slots j with _ | m
      · rfl
      have hlt := ht.2.2 m hm fun e => hown (by rw [hm, e])
      simpa [h.epoch] using hlt
  · exact ⟨r, if_pos (by simpa using hclaim), hkeep fun ht => absurd ht.1 hclaim⟩

theorem rebindSlots_ok (sender epoch : Nat) (slots : Nat → Bool) (cur : Option Nat)
    (h : c.BitsAgree) :
    ∃ r, (range clusterSlots).foldlM (rebindSlot sender epoch slots cur) ⟨c, none, []⟩ = .ok r ∧
      Rebinds c sender (c.Takes sender epoch slots) r.state := by
  have hloop : ∀ k, k ≤ clusterSlots → ∃ r,
      (range k).foldlM (rebindSlot sender epoch slots cur) ⟨c, none, []⟩ = .ok r ∧
        Rebinds c sender (fun j => j < k ∧ c.Takes sender epoch slots j) r.state := by
    intro k
    induction k with
    | zero =>
      intro _
      exact ⟨_, rfl, (Rebinds.self h sender).congr (by simp) (by simp)⟩
    | succ k ih =>
      intro hk
      obtain ⟨r, hr, hreb⟩ := ih (by omega)
      obtain ⟨r', hr', hreb'⟩ := rebindSlot_ok epoch slots cur hreb (j := k) hk (by omega)
      refine ⟨r', ?_, hreb'.congr (fun j _ hj => .inl ?_) fun j hj => ?_⟩
      · rw [range_succ, foldlM_append, hr, ok_bind, foldlM_cons, hr']
        rfl
      · by_cases hjk : j = k
        · exact .inr ⟨hjk, hjk ▸ hj.2⟩
        · exact .inl ⟨by omega, hj.2⟩
      rcases hj with hj | ⟨rfl, hj⟩
      · exact ⟨by omega, hj.2⟩
      · exact ⟨by omega, hj⟩
  obtain ⟨r, hr, hreb⟩ := hloop clusterSlots le_rfl
  exact ⟨r, hr, hreb.congr (fun j hj ht => .inl ⟨hj, ht⟩) fun j hj => hj.2⟩

end

/-! ## One header -/

section

variable {c d c' : ClusterState} {sender epoch j n : Nat}

theorem slot_free_of_numslots (hb : c.BitsAgree) (h0 : (c.nodes n).numslots = 0) :
    ∀ j < clusterSlots, c.slots j ≠ some n := by
  intro j hj hs
  have hcount := countP_eq_zero.mp h0 j (mem_range.mpr hj)
  exact hcount ((hb n j hj).mpr hs)

theorem numslots_of_slot_free (hb : c.BitsAgree)
    (h : ∀ j < clusterSlots, c.slots j ≠ some n) : (c.nodes n).numslots = 0 := by
  refine countP_eq_zero.mpr fun j hj hbit => ?_
  have hj := mem_range.mp hj
  exact h j hj ((hb n j hj).mp hbit)

/-- `c'` is `c` with the slots `P` bound to `n`, and perhaps with the observer as a slave of `n`. -/
structure Updates (c : ClusterState) (n : Nat) (P : Nat → Prop) (c' : ClusterState) : Prop where
  consistent : c'.Consistent
  bound : ∀ j < clusterSlots, P j → c'.slots j = some n
  others : ∀ j < clusterSlots, ¬ P j → c'.slots j = c.slots j
  myself : c'.myself = c.myself
  known : c'.known = c.known
  importing : ∀ j, c.importingSlotsFrom j = none → c'.importingSlotsFrom j = none
  epoch : ∀ m, (c'.nodes m).configEpoch = (c.nodes m).configEpoch

theorem Updates.self (hc : c.Consistent)
    (hP : ∀ j < clusterSlots, P j → c.slots j = some n) : Updates c n P c :=
  ⟨hc, hP, fun _ _ _ => rfl, rfl, rfl, fun _ h => h, fun _ => rfl⟩

theorem nodes_clusterCloseAllSlots : c.clusterCloseAllSlots.nodes = c.nodes := rfl

theorem clusterSetMaster_ok (hb : c.BitsAgree) (hn : n ≠ c.myself)
    (hfree : ∀ j < clusterSlots, c.slots j ≠ some c.myself) :
    ∃ c', c.clusterSetMaster n = .ok c' ∧ c'.Consistent ∧ c'.slots = c.slots ∧
      c'.myself = c.myself ∧ c'.known = c.known ∧
      (∀ j, c.importingSlotsFrom j = none → c'.importingSlotsFrom j = none) ∧
      ∀ m, (c'.nodes m).configEpoch = (c.nodes m).configEpoch := by
  rw [clusterSetMaster, if_neg hn, if_neg (by rw [numslots_of_slot_free hb hfree]; simp)]
  refine ⟨_, rfl, ?_⟩
  split
  · refine ⟨⟨fun m j hj => ?_, ⟨n, ?_⟩, fun _ => hfree⟩, rfl, rfl, rfl, fun _ _ => rfl, fun m => ?_⟩
    · refine Iff.trans (Eq.to_iff (congrArg (· = true) ?_)) (hb m j hj)
      refine (setNode_field (fun x => x.slots j) (by intro; rfl)).trans ?_
      rw [nodes_clusterCloseAllSlots]
      exact setNode_field (fun x => x.slots j) (by intro; rfl)
    · simp [curmaster, setNode, clusterCloseAllSlots]
    refine (setNode_field ClusterNode.configEpoch (by intro; rfl)).trans ?_
    rw [nodes_clusterCloseAllSlots]
    exact setNode_field ClusterNode.configEpoch (by intro; rfl)
  rename_i hrole
  refine ⟨⟨fun m j hj => ?_, ⟨n, ?_⟩, fun _ => hfree⟩, rfl, rfl, rfl, fun _ h => h, fun m => ?_⟩
  · refine Iff.trans (Eq.to_iff (congrArg (· = true) ?_)) (hb m j hj)
    exact setNode_field (fun x => x.slots j) (by intro; rfl)
  · simp [curmaster, setNode, hrole]
  · exact setNode_field ClusterNode.configEpoch (by intro; rfl)

theorem clusterUpdateSlotsConfigWith_ok (epoch : Nat) (slots : Nat → Bool) (hc : c.Consistent)
    (hs : sender ≠ c.myself) : ∃ c', c.clusterUpdateSlotsConfigWith sender epoch slots = .ok c' ∧
      Updates c sender (c.Takes sender epoch slots) c' := by
  obtain ⟨r, hr, hreb⟩ := rebindSlots_ok sender epoch slots c.curmaster hc.bits
  rw [clusterUpdateSlotsConfigWith, if_neg hs, hr, ok_bind]
  have hcur : r.state.curmaster = c.curmaster := by
    rw [curmaster, curmaster, hreb.myself, hreb.role, hreb.slaveof]
  have hcons : r.state.Consistent := by
    refine ⟨hreb.bits, by rw [hcur]; exact hc.master, fun hslave j hj => ?_⟩
    rw [hreb.myself, hreb.role] at hslave
    rw [hreb.myself]
    by_cases ht : c.Takes sender epoch slots j
    · rw [hreb.bound j hj ht]
      exact fun e => hs (some.inj e)
    rw [hreb.others j hj ht]
    exact hc.slave hslave j hj
  obtain ⟨m, hm⟩ := hc.master
  -- the observer does not become a slave
  have hstay : Updates c sender (c.Takes sender epoch slots) { r.state with
      keysInSlot := fun j => if j ∈ r.dirtySlots then 0 else r.state.keysInSlot j } :=
    ⟨⟨hcons.bits, hcons.master, hcons.slave⟩, hreb.bound, hreb.others, hreb.myself, hreb.known,
      fun j hj => by rw [← hreb.importing] at hj; exact hj, hreb.epoch⟩
  -- it does: it has no slots then
  have hset : (r.state.nodes m).numslots = 0 → ∃ c', r.state.clusterSetMaster sender = .ok c' ∧
      Updates c sender (c.Takes sender epoch slots) c' := by
    intro h0
    have hmine : ∀ j < clusterSlots, r.state.slots j ≠ some r.state.myself := by
      rcases hrole : (r.state.nodes r.state.myself).master with _ | _
      · exact hcons.slave hrole
      have hme : m = r.state.myself := by
        rw [← hcur, curmaster, if_pos hrole, some.injEq] at hm
        exact hm.symm
      rw [hme] at h0
      exact slot_free_of_numslots hcons.bits h0
    obtain ⟨c', hc', hcons', hslots, hmyself, hknown, himp, hepoch⟩ :=
      clusterSetMaster_ok hcons.bits (by rw [hreb.myself]; exact hs) hmine
    refine ⟨c', hc', hcons', ?_, ?_, hmyself.trans hreb.myself, hknown.trans hreb.known, ?_,
      fun n => (hepoch n).trans (hreb.epoch n)⟩
    · rw [hslots]; exact hreb.bound
    · rw [hslots]; exact hreb.others
    · exact fun j hj => himp j (by rw [hreb.importing]; exact hj)
  rw [hm]
  rcases hnew : r.newmaster with _ | k
  · exact ⟨_, rfl, hstay⟩
  simp only [isSome_some, if_true, deref_some, ok_bind]
  by_cases h0 : (r.state.nodes m).numslots = 0
  · obtain ⟨c', hc', hup⟩ := hset h0
    exact ⟨c', by rw [decide_eq_true h0]; exact hc', hup⟩
  · exact ⟨_, by rw [decide_eq_false h0]; rfl, hstay⟩

theorem updateSlots_ok (hc : c.Consistent) (hs : h.sender ≠ c.myself)
    (hm : (c.nodes h.sender).master = true) : ∃ c', c.updateSlots h = .ok c' ∧
      Updates c h.sender (c.Takes h.sender h.configEpoch h.myslots) c' := by
  rw [updateSlots]
  by_cases hd : c.dirty h = true
  · obtain ⟨d, hd', hup⟩ := clusterUpdateSlotsConfigWith_ok h.configEpoch h.myslots hc hs
    rw [if_pos hd, if_pos hm, hd', ok_bind]
    obtain _ | n := d.outdated h
    · exact ⟨d, rfl, hup⟩
    have hcons := hup.consistent
    exact ⟨_, rfl, ⟨hcons.bits, hcons.master, hcons.slave⟩, hup.bound, hup.others, hup.myself,
      hup.known, hup.importing, hup.epoch⟩
  -- the claimed slots are those of the bitmap
  refine ⟨c, if_neg hd, Updates.self hc fun j hj ht => ?_⟩
  rw [dirty, if_pos hm] at hd
  have hsame : (c.nodes h.sender).slots j = h.myslots j := by
    by_contra hne
    exact hd (any_eq_true.mpr ⟨j, mem_range.mpr hj, by simpa using hne⟩)
  exact (hc.bits h.sender j hj).mp (hsame.trans ht.1)

/-- A header from another node, a master that is known. -/
structure FromMaster (c : ClusterState) (h : Header) : Prop where
  known : c.known h.sender = true
  master : h.slaveof = none
  other : h.sender ≠ c.myself

/-- What a header of a master does. -/
structure Processed (c : ClusterState) (h : Header) (c' : ClusterState) : Prop where
  consistent : c'.Consistent
  bound : ∀ j < clusterSlots, c.Takes h.sender h.configEpoch h.myslots j →
    c'.slots j = some h.sender
  others : ∀ j < clusterSlots, ¬ c.Takes h.sender h.configEpoch h.myslots j →
    c'.slots j = c.slots j
  myself : c'.myself = c.myself
  known : c'.known = c.known
  importing : ∀ j, c.importingSlotsFrom j = none → c'.importingSlotsFrom j = none
  sender : (c'.nodes h.sender).configEpoch = max (c.nodes h.sender).configEpoch h.configEpoch
  epoch : ∀ n, n ≠ h.sender → n ≠ c.myself →
    (c'.nodes n).configEpoch = (c.nodes n).configEpoch
  mine : h.configEpoch ≠ (c.nodes c.myself).configEpoch →
    (c'.nodes c.myself).configEpoch = (c.nodes c.myself).configEpoch

/-- `d` is `c` with another epoch, and perhaps another role, of the sender. -/
structure SenderUpdated (c : ClusterState) (h : Header) (d : ClusterState) : Prop where
  slots : d.slots = c.slots
  myself : d.myself = c.myself
  known : d.known = c.known
  importing : d.importingSlotsFrom = c.importingSlotsFrom
  bitmap : (d.nodes h.sender).slots = (c.nodes h.sender).slots
  epoch : (d.nodes h.sender).configEpoch = max (c.nodes h.sender).configEpoch h.configEpoch
  others : ∀ n, n ≠ h.sender → d.nodes n = c.nodes n

theorem senderUpdated_updateEpochs (c : ClusterState) (h : Header) :
    SenderUpdated c h (c.updateEpochs h) := by
  rw [updateEpochs]
  split
  · next hlt =>
    refine ⟨rfl, rfl, rfl, rfl, setNode_field ClusterNode.slots (by intro; rfl), ?_,
      fun n hn => if_neg hn⟩
    simp only [setNode, if_true]
    exact (max_eq_right (Nat.le_of_lt hlt)).symm
  next hle =>
  exact ⟨rfl, rfl, rfl, rfl, rfl, (max_eq_left (Nat.le_of_not_lt hle)).symm, fun _ _ => rfl⟩

theorem SenderUpdated.clusterSetNodeAsMaster (hd : SenderUpdated c h d) :
    SenderUpdated c h (d.clusterSetNodeAsMaster h.sender) ∧
      ((d.clusterSetNodeAsMaster h.sender).nodes h.sender).master = true := by
  rw [ClusterState.clusterSetNodeAsMaster]
  split
  · next hm => exact ⟨hd, hm⟩
  refine ⟨⟨hd.slots, hd.myself, hd.known, hd.importing, ?_, ?_, fun n hn => ?_⟩, ?_⟩
  · exact (setNode_field ClusterNode.slots (by intro; rfl)).trans hd.bitmap
  · exact (setNode_field ClusterNode.configEpoch (by intro; rfl)).trans hd.epoch
  · exact (if_neg hn).trans (hd.others n hn)
  · simp [setNode]

theorem SenderUpdated.consistent (hd : SenderUpdated c h d) (hc : c.Consistent)
    (hs : h.sender ≠ c.myself) : d.Consistent := by
  have hme : d.nodes d.myself = c.nodes c.myself := by rw [hd.myself, hd.others _ (Ne.symm hs)]
  refine ⟨fun n j hj => ?_, ?_, ?_⟩
  · rw [hd.slots, ← hc.bits n j hj]
    by_cases hn : n = h.sender
    · rw [hn, hd.bitmap]
    · rw [hd.others n hn]
  · rw [curmaster, hme, hd.myself]
    exact hc.master
  rw [hme, hd.slots, hd.myself]
  exact hc.slave

/-- **A header of a master binds the slots that it takes.** -/
theorem processHeader_ok (hc : c.Consistent) (hh : c.FromMaster h) :
    ∃ c', c.processHeader h = .ok c' ∧ Processed c h c' := by
  obtain ⟨hd, hmaster⟩ := (senderUpdated_updateEpochs c h).clusterSetNodeAsMaster
  have hrole : (c.updateEpochs h).updateRole h =
      .ok ((c.updateEpochs h).clusterSetNodeAsMaster h.sender) := by rw [updateRole, hh.master]
  generalize (c.updateEpochs h).clusterSetNodeAsMaster h.sender = d at hd hmaster hrole
  obtain ⟨e, he, hup⟩ := updateSlots_ok (hd.consistent hc hh.other)
    (by rw [hd.myself]; exact hh.other) hmaster
  rw [processHeader, if_pos hh.known, hrole, ok_bind, he, ok_bind]
  refine ⟨_, rfl, ?_⟩
  -- the epochs of the nodes that have slots are those before the header
  have htakes : ∀ j, d.Takes h.sender h.configEpoch h.myslots j ↔
      c.Takes h.sender h.configEpoch h.myslots j := by
    intro j
    rw [Takes, Takes, hd.importing, hd.slots]
    refine and_congr_right fun _ => and_congr_right fun _ => forall_congr' fun n =>
      forall_congr' fun _ => forall_congr' fun hn => ?_
    rw [hd.others n hn]
  have hkept : ∀ c' : ClusterState, c'.Consistent → c'.slots = e.slots → c'.myself = e.myself →
      c'.known = e.known → c'.importingSlotsFrom = e.importingSlotsFrom →
      (∀ n, n ≠ c.myself → (c'.nodes n).configEpoch = (e.nodes n).configEpoch) →
      (h.configEpoch ≠ (c.nodes c.myself).configEpoch →
        (c'.nodes c.myself).configEpoch = (e.nodes c.myself).configEpoch) → Processed c h c' := by
    intro c' h1 h2 h3 h4 h5 h6 h7
    refine ⟨h1, fun j hj ht => ?_, fun j hj ht => ?_, ?_, ?_, fun j hj => ?_, ?_, fun n hn hme => ?_,
      fun hne => ?_⟩
    · rw [h2, hup.bound j hj ((htakes j).mpr ht)]
    · rw [h2, hup.others j hj (mt (htakes j).mp ht), hd.slots]
    · rw [h3, hup.myself, hd.myself]
    · rw [h4, hup.known, hd.known]
    · rw [h5]
      exact hup.importing j (by rw [hd.importing]; exact hj)
    · rw [h6 _ hh.other, hup.epoch, hd.epoch]
    · rw [h6 n hme, hup.epoch, hd.others n hn]
    · rw [h7 hne, hup.epoch, hd.others _ (Ne.symm hh.other)]
  have hme : e.myself = c.myself := hup.myself.trans hd.myself
  rw [clusterHandleConfigEpochCollision]
  split
  · next hcol =>
    obtain ⟨hrole, -, hepochs, -⟩ := hcol
    refine hkept _ ⟨fun n j hj => ?_, ?_, ?_⟩ rfl rfl rfl rfl (fun n hn => ?_) fun hne => ?_
    · refine Iff.trans (Eq.to_iff (congrArg (fun b : Nat → Bool => b j = true) ?_))
        (hup.consistent.bits n j hj)
      exact setNode_field ClusterNode.slots (by intro; rfl)
    · refine ⟨e.myself, ?_⟩
      simp [curmaster, setNode, hrole]
    · intro hslave
      simp [setNode, hrole] at hslave
    · exact congrArg ClusterNode.configEpoch (if_neg (by rw [hme]; exact hn))
    refine absurd ?_ hne
    rw [hepochs, hme, hup.epoch, hd.others _ (Ne.symm hh.other)]
  · exact hkept e hup.consistent rfl rfl rfl rfl (fun _ _ => rfl) fun _ => rfl

end

/-! ## Runs -/

variable {c : ClusterState} {hs pre post : List Header} {s : Nat}

theorem FromMaster.congr {d : ClusterState} (hh : c.FromMaster h) (hk : d.known = c.known)
    (hm : d.myself = c.myself) : d.FromMaster h :=
  ⟨by rw [hk]; exact hh.known, hh.master, by rw [hm]; exact hh.other⟩

theorem run_rule {P : ClusterState → Prop} (hc : c.Consistent) (hP : P c)
    (hall : ∀ h ∈ hs, c.FromMaster h)
    (step : ∀ d d' h, h ∈ hs → d.FromMaster h → P d → Processed d h d' → P d') :
    ∃ d, c.run hs = .ok d ∧ d.Consistent ∧ d.known = c.known ∧ d.myself = c.myself ∧ P d := by
  induction hs generalizing c with
  | nil => exact ⟨c, rfl, hc, rfl, rfl, hP⟩
  | cons h hs ih =>
    have hh := hall h (by simp)
    obtain ⟨d, hd, hp⟩ := processHeader_ok hc hh
    obtain ⟨e, he, hcons, hknown, hmyself, hPe⟩ := ih hp.consistent
      (step c d h (by simp) hh hP hp)
      (fun k hk => (hall k (by simp [hk])).congr hp.known hp.myself)
      fun d d' k hk => step d d' k (by simp [hk])
    refine ⟨e, ?_, hcons, hknown.trans hp.known, hmyself.trans hp.myself, hPe⟩
    rw [run, foldlM_cons, hd, ok_bind]
    exact he

theorem run_append (h : c.run pre = .ok d) (post : List Header) :
    c.run (pre ++ post) = d.run post := by
  rw [run] at h
  rw [run, foldlM_append, h, ok_bind, run]

/-- The slot `s` is bound to `n`, whose recorded epoch is `e`, and it is not being imported. -/
structure Bound (s n e : Nat) (c : ClusterState) : Prop where
  slot : c.slots s = some n
  epoch : (c.nodes n).configEpoch = e
  importing : c.importingSlotsFrom s = none
  other : n ≠ c.myself

section

variable (hs' : s < clusterSlots) (hc : c.Consistent)
include hs' hc

variable {n e : Nat}

theorem run_bound (hb : Bound s n e c)
    (hall : ∀ k ∈ hs, c.FromMaster k) (hn : ∀ k ∈ hs, k.sender ≠ n)
    (hle : ∀ k ∈ hs, k.myslots s = true → k.configEpoch ≤ e) :
    ∃ d, c.run hs = .ok d ∧ d.Consistent ∧ d.known = c.known ∧ d.myself = c.myself ∧
      Bound s n e d := by
  refine run_rule hc hb hall fun d d' k hk hm hb hp => ?_
  have hnot : ¬ d.Takes k.sender k.configEpoch k.myslots s := by
    rintro ⟨hclaim, -, hlt⟩
    have hlt := hlt n hb.slot (Ne.symm (hn k hk))
    have hle := hle k hk hclaim
    rw [hb.epoch] at hlt
    omega
  refine ⟨(hp.others s hs' hnot).trans hb.slot, ?_, hp.importing s hb.importing, ?_⟩
  · rw [hp.epoch n (Ne.symm (hn k hk)) hb.other, hb.epoch]
  rw [hp.myself]
  exact hb.other

theorem run_unbound
    (hb : c.slots s ≠ some n) (hall : ∀ k ∈ hs, c.FromMaster k) (hn : ∀ k ∈ hs, k.sender ≠ n) :
    ∃ d, c.run hs = .ok d ∧ d.Consistent ∧ d.known = c.known ∧ d.myself = c.myself ∧
      d.slots s ≠ some n := by
  refine run_rule hc hb hall fun d d' k hk hm hb hp => ?_
  by_cases ht : d.Takes k.sender k.configEpoch k.myslots s
  · rw [hp.bound s hs' ht]
    exact fun he => hn k hk (some.inj he)
  rw [hp.others s hs' ht]
  exact hb

theorem run_taken
    (hb : Bound s n e c) (hall : ∀ k ∈ hs, c.FromMaster k) (hn : ∀ k ∈ hs, k.sender ≠ n)
    (hk : k ∈ hs) (hclaim : k.myslots s = true) (hlt : e < k.configEpoch) :
    ∃ d, c.run hs = .ok d ∧ d.slots s ≠ some n := by
  induction hs generalizing c with
  | nil => exact absurd hk not_mem_nil
  | cons h hs ih =>
    have hh := hall h (by simp)
    obtain ⟨d, hd, hp⟩ := processHeader_ok hc hh
    have hall' : ∀ k ∈ hs, d.FromMaster k := fun k hk =>
      (hall k (by simp [hk])).congr hp.known hp.myself
    have hn' : ∀ k ∈ hs, k.sender ≠ n := fun k hk => hn k (by simp [hk])
    have hne : n ≠ h.sender := Ne.symm (hn h (by simp))
    rw [run, foldlM_cons, hd, ok_bind]
    by_cases ht : c.Takes h.sender h.configEpoch h.myslots s
    · have hgone : d.slots s ≠ some n := by
        rw [hp.bound s hs' ht]
        exact fun he => hne (some.inj he).symm
      obtain ⟨d', hd', -, -, -, hfree⟩ := run_unbound hs' hp.consistent hgone hall' hn'
      exact ⟨d', hd', hfree⟩
    have hb' : Bound s n e d := by
      refine ⟨(hp.others s hs' ht).trans hb.slot, ?_, hp.importing s hb.importing, ?_⟩
      · rw [hp.epoch n hne hb.other, hb.epoch]
      rw [hp.myself]
      exact hb.other
    refine ih hp.consistent hb' hall' hn' ?_
    -- the header is not the one that takes the slot
    rcases mem_cons.mp hk with rfl | hk
    · refine absurd ⟨hclaim, hb.importing, fun m hm _ => ?_⟩ ht
      rw [hb.slot, some.injEq] at hm
      rw [← hm, hb.epoch]
      exact hlt
    · exact hk

theorem run_slot_iff (himp : c.importingSlotsFrom s = none) (hother : n ≠ c.myself)
    (hall : ∀ k ∈ hs, c.FromMaster k) (hn : ∀ k ∈ hs, k.sender ≠ n) :
    ∃ d, c.run hs = .ok d ∧ (d.slots s = some n ↔ c.slots s = some n ∧
      ∀ k ∈ hs, k.myslots s = true → k.configEpoch ≤ (c.nodes n).configEpoch) := by
  by_cases hb : c.slots s = some n
  · have hbound : Bound s n (c.nodes n).configEpoch c := ⟨hb, rfl, himp, hother⟩
    by_cases hle : ∀ k ∈ hs, k.myslots s = true → k.configEpoch ≤ (c.nodes n).configEpoch
    · obtain ⟨d, hd, -, -, -, hd'⟩ := run_bound hs' hc hbound hall hn hle
      exact ⟨d, hd, iff_of_true hd'.slot ⟨hb, hle⟩⟩
    obtain ⟨k, hk, hclaim, hlt⟩ : ∃ k ∈ hs, k.myslots s = true ∧
        (c.nodes n).configEpoch < k.configEpoch := by
      simpa using hle
    obtain ⟨d, hd, hfree⟩ := run_taken hs' hc hbound hall hn hk hclaim hlt
    exact ⟨d, hd, iff_of_false hfree fun h => hle h.2⟩
  obtain ⟨d, hd, -, -, -, hfree⟩ := run_unbound hs' hc hb hall hn
  exact ⟨d, hd, iff_of_false hfree fun h => hb h.1⟩

end

theorem Processed.slot_iff (hp : Processed d h e) (hs' : s < clusterSlots)
    (hclaim : h.myslots s = true) (hi : d.importingSlotsFrom s = none) : e.slots s = some h.sender ↔
      ∀ n, d.slots s = some n → n ≠ h.sender → (d.nodes n).configEpoch < h.configEpoch := by
  by_cases ht : d.Takes h.sender h.configEpoch h.myslots s
  · exact iff_of_true (hp.bound s hs' ht) ht.2.2
  rw [hp.others s hs' ht]
  refine iff_of_false (fun hsl => ht ⟨hclaim, hi, fun n hn hne => ?_⟩)
    fun hlt => ht ⟨hclaim, hi, hlt⟩
  rw [hsl, some.injEq] at hn
  exact absurd hn.symm hne

/-- `n` has the slot in the beginning, or claims it in a header. -/
def Claims (c : ClusterState) (hs : List Header) (s n : Nat) : Prop :=
  c.slots s = some n ∨ ∃ k ∈ hs, k.sender = n ∧ k.myslots s = true

theorem run_claims {B e : Nat} (hs' : s < clusterSlots) (hc : c.Consistent)
    (hall : ∀ k ∈ hs, c.FromMaster k)
    (hmine : ∀ k ∈ hs, k.configEpoch ≠ (c.nodes c.myself).configEpoch) {T : Nat → Prop}
    (hT : ∀ n, c.Claims hs s n → T n) (hlow : ∀ n, T n → n ≠ B → (c.nodes n).configEpoch < e ∧
      ∀ k ∈ hs, k.sender = n → k.configEpoch < e) :
    ∃ d, c.run hs = .ok d ∧ ∀ n, d.slots s = some n → n ≠ B → (d.nodes n).configEpoch < e := by
  have hrun := run_rule hc
    (P := fun d => (∀ n, d.slots s = some n → T n) ∧
      (∀ n, T n → n ≠ B → (d.nodes n).configEpoch < e) ∧
      (d.nodes d.myself).configEpoch = (c.nodes c.myself).configEpoch)
    ⟨fun n hn => hT n (.inl hn), fun n ht hn => (hlow n ht hn).1, rfl⟩ hall
  obtain ⟨d, hd, -, -, -, hown, hepoch, -⟩ := hrun fun d d' k hk hm hP hp => by
    obtain ⟨hown, hepoch, hme⟩ := hP
    have hme' : (d'.nodes d'.myself).configEpoch = (c.nodes c.myself).configEpoch := by
      rw [hp.myself, hp.mine (by rw [hme]; exact hmine k hk), hme]
    refine ⟨fun n hn => ?_, fun n ht hn => ?_, hme'⟩
    · by_cases ht : d.Takes k.sender k.configEpoch k.myslots s
      · rw [hp.bound s hs' ht, some.injEq] at hn
        exact hT n (.inr ⟨k, hk, hn, ht.1⟩)
      rw [hp.others s hs' ht] at hn
      exact hown n hn
    by_cases hsender : n = k.sender
    · rw [hsender, hp.sender, Nat.max_lt, ← hsender]
      exact ⟨hepoch n ht hn, (hlow n ht hn).2 k hk hsender.symm⟩
    by_cases hmy : n = d.myself
    · rw [hmy, ← hp.myself, hme', ← hme, ← hmy]
      exact hepoch n ht hn
    rw [hp.epoch n hsender hmy]
    exact hepoch n ht hn
  exact ⟨d, hd, fun n hn => hepoch n (hown n hn)⟩

/-- **The slot table after the latest header of each master.** A slot that the latest header `h` of a
master claims, and that is not being imported, is bound to that master if and only if nobody else had
it with a `configEpoch` as great when `h` arrived, and no later header claims it with a greater one.
So it is bound to that master if all others that ever claimed it have smaller epochs. -/
theorem slot_bound_iff (hc : c.Consistent) (hs' : s < clusterSlots)
    (hall : ∀ k ∈ pre ++ h :: post, c.FromMaster k) (hlast : ∀ k ∈ post, k.sender ≠ h.sender)
    (hclaim : h.myslots s = true) : ∃ d c', c.run pre = .ok d ∧ c.run (pre ++ h :: post) = .ok c' ∧
      (d.importingSlotsFrom s = none → (c'.slots s = some h.sender ↔
        (∀ n, d.slots s = some n → n ≠ h.sender → (d.nodes n).configEpoch < h.configEpoch) ∧
        ∀ k ∈ post, k.myslots s = true →
          k.configEpoch ≤ max (d.nodes h.sender).configEpoch h.configEpoch)) ∧
      (c.importingSlotsFrom s = none →
        (∀ k ∈ pre ++ h :: post, k.configEpoch ≠ (c.nodes c.myself).configEpoch) →
        (∀ n, c.Claims (pre ++ h :: post) s n → n ≠ h.sender →
          (c.nodes n).configEpoch < h.configEpoch ∧
          ∀ k ∈ pre ++ h :: post, k.sender = n → k.configEpoch < h.configEpoch) →
        c'.slots s = some h.sender) := by
  have hpre : ∀ k ∈ pre, c.FromMaster k := fun k hk => hall k (mem_append_left _ hk)
  obtain ⟨d, hd, hcons, hknown, hmyself, himp⟩ := run_rule
    (P := fun d => c.importingSlotsFrom s = none → d.importingSlotsFrom s = none) hc (fun h => h)
    hpre fun d d' k _ _ h hp hi => hp.importing s (h hi)
  have hh : d.FromMaster h := (hall h (by simp)).congr hknown hmyself
  obtain ⟨e, he, hp⟩ := processHeader_ok hcons hh
  have hpost : ∀ k ∈ post, e.FromMaster k := fun k hk =>
    ((hall k (by simp [hk])).congr hknown hmyself).congr hp.known hp.myself
  have hother : h.sender ≠ e.myself := by
    rw [hp.myself]
    exact hh.other
  obtain ⟨c', hc', -⟩ := run_rule (P := fun _ => True) hp.consistent trivial hpost
    fun _ _ _ _ _ _ _ => trivial
  have hrun : c.run (pre ++ h :: post) = .ok c' := by
    rw [run_append hd, run, foldlM_cons, he, ok_bind]
    exact hc'
  have hiff : d.importingSlotsFrom s = none → (c'.slots s = some h.sender ↔
      (∀ n, d.slots s = some n → n ≠ h.sender → (d.nodes n).configEpoch < h.configEpoch) ∧
      ∀ k ∈ post, k.myslots s = true →
        k.configEpoch ≤ max (d.nodes h.sender).configEpoch h.configEpoch) := by
    intro hi
    obtain ⟨c'', hc'', hslot⟩ :=
      run_slot_iff hs' hp.consistent (hp.importing s hi) hother hpost hlast
    rw [hc', Except.ok.injEq] at hc''
    rw [hc'', hslot, hp.slot_iff hs' hclaim hi, hp.sender]
  refine ⟨d, c', hd, hrun, hiff, fun hi hmine hlow => ?_⟩
  refine (hiff (himp hi)).mpr ⟨?_, fun k hk hk' => ?_⟩
  · obtain ⟨d', hd', hbelow⟩ := run_claims hs' hc hpre
      (fun k hk => hmine k (mem_append_left _ hk))
      (T := fun n => c.Claims (pre ++ h :: post) s n) (B := h.sender) (e := h.configEpoch)
      (fun n hn => hn.imp_right fun ⟨k, hk, hk'⟩ => ⟨k, mem_append_left _ hk, hk'⟩)
      fun n hn hne => ⟨(hlow n hn hne).1, fun k hk => (hlow n hn hne).2 k (mem_append_left _ hk)⟩
    rw [hd, Except.ok.injEq] at hd'
    rw [hd']
    exact hbelow
  have hmem : k ∈ pre ++ h :: post := by simp [hk]
  have := (hlow k.sender (.inr ⟨k, hmem, rfl, hk'⟩) (hlast k hk)).2 k hmem rfl
  omega

def unassigned : ClusterState where
  myself := 0
  currentEpoch := 0
  known := fun _ => true
  nodes := fun _ => ⟨0, fun _ => false, true, none⟩
  slots := fun _ => none
  migratingSlotsTo := fun _ => none
  importingSlotsFrom := fun _ => none
  keysInSlot := fun _ => 0
  updates := []

theorem consistent_unassigned : unassigned.Consistent :=
  ⟨fun _ _ _ => by simp [unassigned], ⟨0, rfl⟩, fun h => absurd h (by decide)⟩

/-- A header of the master `n` with the epoch `e`, which claims the slot 0 or no slot. -/
def slotZero (n e : Nat) (claimed : Bool) : Header := ⟨n, e, e, none, fun j => claimed && j == 0⟩

theorem fromMaster_slotZero (hn : n ≠ 0) :
    unassigned.FromMaster (slotZero n e claimed) := ⟨rfl, rfl, hn⟩

theorem slot_bound_iff_newer : ∃ c', unassigned.run
    [slotZero 1 1 true, slotZero 2 2 true, slotZero 1 1 false] = .ok c' ∧ c'.slots 0 = some 2 := by
  have hall : ∀ k ∈ [slotZero 1 1 true] ++ slotZero 2 2 true :: [slotZero 1 1 false],
      unassigned.FromMaster k := by simp [fromMaster_slotZero]
  have hlast : ∀ k ∈ [slotZero 1 1 false], k.sender ≠ (slotZero 2 2 true).sender := by
    simp [slotZero]
  obtain ⟨-, c', -, hc', -, hb⟩ := slot_bound_iff (s := 0) consistent_unassigned (by decide) hall
    hlast rfl
  refine ⟨c', hc', hb rfl (by simp [slotZero, unassigned]) ?_⟩
  rintro n (hn | ⟨k, hk, rfl, -⟩) hne
  · cases hn
  simp only [cons_append, nil_append, mem_cons, not_mem_nil, or_false] at hk
  rcases hk with rfl | rfl | rfl
  · exact ⟨by decide, by simp [slotZero]⟩
  · exact absurd rfl hne
  · exact ⟨by decide, by simp [slotZero]⟩

/-- A master with a greater epoch keeps a slot that it no longer claims: no header takes a slot from
a node with a greater epoch, and none gives it up. -/
theorem slot_kept_unclaimed : ∃ c', unassigned.run
    [slotZero 1 2 true, slotZero 1 2 false, slotZero 2 1 true] = .ok c' ∧
      c'.importingSlotsFrom 0 = none ∧ c'.slots 0 = some 1 := by
  have h0 : 0 < clusterSlots := by decide
  obtain ⟨d, hd, hp⟩ := processHeader_ok (h := slotZero 1 2 true) consistent_unassigned
    (fromMaster_slotZero (by decide))
  have hslot : d.slots 0 = some 1 := hp.bound 0 h0 ⟨rfl, rfl, fun _ hn => by cases hn⟩
  have hepoch : (d.nodes 1).configEpoch = 2 := hp.sender
  have hall : ∀ k ∈ [slotZero 1 2 false, slotZero 2 1 true], d.FromMaster k := fun k hk => by
    have hk : unassigned.FromMaster k := by
      simp only [mem_cons, not_mem_nil, or_false] at hk
      rcases hk with rfl | rfl <;> exact fromMaster_slotZero (by decide)
    exact hk.congr hp.known hp.myself
  obtain ⟨e, he, hp'⟩ := processHeader_ok (h := slotZero 1 2 false) hp.consistent
    (hall _ (by simp))
  have hbound : Bound 0 1 2 e := by
    refine ⟨(hp'.others 0 h0 fun ht => ?_).trans hslot, ?_, hp'.importing 0 (hp.importing 0 rfl), ?_⟩
    · exact absurd ht.1 (by decide)
    · rw [show (1 : Nat) = (slotZero 1 2 false).sender from rfl, hp'.sender]
      exact congrArg (max · 2) hepoch
    rw [hp'.myself, hp.myself]
    decide
  have hall' : ∀ k ∈ [slotZero 2 1 true], e.FromMaster k := fun k hk =>
    (hall k (mem_cons_of_mem _ hk)).congr hp'.known hp'.myself
  obtain ⟨c', hc', -, -, -, hb⟩ := run_bound h0 hp'.consistent hbound hall' (by simp [slotZero])
    (by simp [slotZero])
  refine ⟨c', ?_, hb.importing, hb.slot⟩
  rw [run, foldlM_cons, hd, ok_bind, foldlM_cons, he, ok_bind]
  exact hc'

/-- **The slot table and the bitmaps of the nodes agree** after every run of headers of other
known masters, and
no recorded `configEpoch` of another node decreases. -/
theorem slots_agree (hc : c.Consistent) (hall : ∀ k ∈ hs, c.FromMaster k) :
    ∃ c', c.run hs = .ok c' ∧ c'.BitsAgree ∧
      ∀ n, n ≠ c.myself → (c.nodes n).configEpoch ≤ (c'.nodes n).configEpoch := by
  refine (run_rule (P := fun d => d.myself = c.myself ∧
      ∀ n, n ≠ c.myself → (c.nodes n).configEpoch ≤ (d.nodes n).configEpoch) hc
    ⟨rfl, fun _ _ => Nat.le_refl _⟩ hall fun d d' k _ _ hd hp => ?_).imp
    fun c' ⟨hrun, hcons, _, _, _, hmono⟩ => ⟨hrun, hcons.bits, hmono⟩
  refine ⟨hp.myself.trans hd.1, fun n hn => (hd.2 n hn).trans ?_⟩
  by_cases hk : n = k.sender
  · rw [hk, hp.sender]
    exact Nat.le_max_left _ _
  · rw [hp.epoch n hk (hd.1 ▸ hn)]

theorem slots_agree_two_claims : ∃ c', unassigned.run [slotZero 1 1 true, slotZero 2 2 true] = .ok c' ∧
    c'.BitsAgree ∧ ∀ n, n ≠ 0 → (unassigned.nodes n).configEpoch ≤ (c'.nodes n).configEpoch :=
  slots_agree consistent_unassigned (by simp [fromMaster_slotZero])

end UfsRedis.Cluster.ClusterState
