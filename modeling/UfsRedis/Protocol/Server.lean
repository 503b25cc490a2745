import UfsRedis.Protocol.Node

/-!
# The server's end of a link

`serverProc_spec`: the server receives an operation on the state space of its sender, adds the
transformed one to the spaces of the other clients, and feeds it to them.
-/

namespace UfsRedis

open Lib

section

variable {E : List Sds} {key oid ctx : Sds} {op op' : UfsOp}

theorem serverOp_eq (hop : OpOk E op) :
    (⟨if cmdName op.optype = unionCmd then .union else .split, op.argv1, op.argv2⟩ : UfsOp) =
      op := by
  cases hop <;> rfl

theorem serverArgs_encode (hop : OpOk E op) (hop' : OpOk E op') (htype : op'.optype = op.optype)
    (oids : Sds) : serverArgs (encode key op oid ctx) op' oids = .ok (encode key op' oid oids) := by
  cases hop with
  | union =>
    cases hop' with
    | union => rfl
    | split => exact absurd htype (by simp [unionOp, splitOp])
  | split =>
    cases hop' with
    | union => exact absurd htype (by simp [unionOp, splitOp])
    | split => rfl

end

section

variable {n : Node} {id port ℓ : Nat} {key k : Sds} {sv s : Verlist} {V : Space}
  {spaces spaces' : List Verlist} {e : Dedge}

theorem Node.locateVerlist_eq (h : n.sver id key = some sv) :
    locateVerlist n id key = .ok (some sv) := by
  rw [Node.sver, Option.bind_eq_some_iff] at h
  obtain ⟨l, hl, hs⟩ := h
  rw [locateVerlist, hl, deref_some, ok_bind]
  exact congrArg Except.ok hs

theorem feedSpace_eq (hk : s.key = key) (hid : s.id ≠ port) {V'}
    (h : addLast s.vertices .r e.op e.oid
      (fun loc => updateVerticeUfsFromState loc.content e.op ℓ) = .ok V') :
    feedSpace key port ℓ e s = .ok { s with vertices := V' } := by
  rw [feedSpace, if_neg (by simp [hk, hid]), h, ok_bind]

theorem feedSpace_skip (h : s.key ≠ key ∨ s.id = port) : feedSpace key port ℓ e s = .ok s := by
  rw [feedSpace, if_pos h]

theorem feedSpace_keeps {s'} (h : feedSpace key port ℓ e s = .ok s') :
    s'.id = s.id ∧ s'.key = s.key := by
  by_cases hs : s.key ≠ key ∨ s.id = port
  · rw [feedSpace_skip hs, Except.ok.injEq] at h
    subst h
    exact ⟨rfl, rfl⟩
  rw [feedSpace, if_neg hs, bind_eq_ok] at h
  obtain ⟨V, -, hV⟩ := h
  rw [Except.ok.injEq] at hV
  subst hV
  exact ⟨rfl, rfl⟩

theorem spaceAt_some (h : spaceAt spaces id key = some s) :
    s ∈ spaces ∧ s.id = id ∧ s.key = key := by
  have := List.find?_some h
  exact ⟨List.mem_of_find?_eq_some h, by simpa using this⟩

def replaceSpace (spaces : List Verlist) (port : Nat) (key : Sds) (V : Space) : List Verlist :=
  updateFirst (fun s => s.id = port ∧ s.key = key) (fun s => { s with vertices := V }) spaces

theorem spaceAt_replaceSpace_self (h : spaceAt spaces port key = some sv) :
    spaceAt (replaceSpace spaces port key V) port key = some { sv with vertices := V } := by
  have := find?_updateFirst_self (p := fun s : Verlist => s.id = port ∧ s.key = key)
    (l := spaces) (f := fun s => { s with vertices := V }) fun _ h => h
  rw [spaceAt] at h
  rw [spaceAt, replaceSpace, this, h, Option.map_some]

theorem spaceAt_replaceSpace_ne (h : id ≠ port ∨ k ≠ key) :
    spaceAt (replaceSpace spaces port key V) id k = spaceAt spaces id k := by
  refine find?_updateFirst_of_disjoint (fun s hs => ?_) fun s hs => ?_ <;>
  · simp only [decide_eq_true_eq] at hs ⊢
    rintro ⟨rfl, rfl⟩
    exact h.elim (fun h => h hs.1) fun h => h hs.2

theorem feedSpaces_spec (hsv : spaceAt spaces port key = some sv)
    (hfeed : ∀ s ∈ spaces, s.key = key → s.id ≠ port → ∃ V', addLast s.vertices .r e.op e.oid
      (fun loc => updateVerticeUfsFromState loc.content e.op ℓ) = .ok V') :
    ∃ spaces', (replaceSpace spaces port key V).mapM (feedSpace key port ℓ e) = .ok spaces' ∧
      (spaces'.map fun s => (s.id, s.key)) = spaces.map (fun s => (s.id, s.key)) ∧
      spaceAt spaces' port key = some { sv with vertices := V } ∧
      (∀ id s, id ≠ port → spaceAt spaces id key = some s → ∃ V', addLast s.vertices .r e.op e.oid
            (fun loc => updateVerticeUfsFromState loc.content e.op ℓ) = .ok V' ∧
          spaceAt spaces' id key = some { s with vertices := V' }) ∧
      ∀ id k, k ≠ key → spaceAt spaces' id k = spaceAt spaces id k := by
  have hfed : ∀ s ∈ replaceSpace spaces port key V, ∃ s', feedSpace key port ℓ e s = .ok s' := by
    intro s hs
    by_cases hskip : s.key ≠ key ∨ s.id = port
    · exact ⟨s, feedSpace_skip hskip⟩
    rw [not_or, not_not] at hskip
    rcases mem_updateFirst hs with hs | ⟨b, -, hb, rfl⟩
    · obtain ⟨V', hV'⟩ := hfeed s hs hskip.1 hskip.2
      exact ⟨_, feedSpace_eq hskip.1 hskip.2 hV'⟩
    · exact absurd (of_decide_eq_true hb).1 hskip.2
  obtain ⟨spaces', hmap, hall⟩ := mapM_ok hfed
  -- a search by client and key finds the fed space
  have hfind := fun id k => find?_forall₂ hall (q := fun s => s.id = id ∧ s.key = k)
    (r := fun s => s.id = id ∧ s.key = k) fun s s' h => by
      rw [(feedSpace_keeps h).1, (feedSpace_keeps h).2]
  refine ⟨spaces', hmap, ?_, ?_, fun id s hid hs => ?_, fun id k hk => ?_⟩
  · rw [map_forall₂ hall fun s s' h => by rw [(feedSpace_keeps h).1, (feedSpace_keeps h).2]]
    exact map_updateFirst fun _ => rfl
  · obtain ⟨s', hs', hfound⟩ := (hfind port key).1 _ (spaceAt_replaceSpace_self hsv)
    rw [feedSpace_skip (s := { sv with vertices := V }) (.inr (spaceAt_some hsv).2.1),
      Except.ok.injEq] at hs'
    rw [hs']
    exact hfound
  · obtain ⟨hmem, hsid, hskey⟩ := spaceAt_some hs
    obtain ⟨V', hV'⟩ := hfeed s hmem hskey (by rwa [hsid])
    rw [← spaceAt_replaceSpace_ne (V := V) (.inl hid)] at hs
    obtain ⟨s', hs', hfound⟩ := (hfind id key).1 _ hs
    rw [feedSpace_eq hskey (by rwa [hsid]) hV', Except.ok.injEq] at hs'
    exact ⟨V', hV', hs' ▸ hfound⟩
  have hsame : spaceAt (replaceSpace spaces port key V) id k = spaceAt spaces id k :=
    spaceAt_replaceSpace_ne (.inr hk)
  rw [← hsame]
  rcases hs : spaceAt (replaceSpace spaces port key V) id k with _ | s
  · exact (hfind id k).2 hs
  obtain ⟨s', hs', hfound⟩ := (hfind id k).1 _ hs
  rw [feedSpace_skip (.inl (by rw [(spaceAt_some hs).2.2]; exact hk)), Except.ok.injEq] at hs'
  rw [hs']
  exact hfound

end

/-! ## The server -/

variable {E argv : List Sds} {ℓ port : Nat} {key : Sds} {L : LinkState} {V : Side → Space}
  {chan : Side → List (List Sds)} {n : Node} {spaces : List Verlist}

theorem serverProc_spec (id : Nat) (hlink : Link E ℓ key L V chan) {rest}
    (hchan : chan .l = argv :: rest) (hspaces : n.sspacelist = some spaces)
    (hsv : spaceAt spaces port key = some ⟨port, key, ℓ, V .l⟩)
    (hfeed : ∀ r, (L.H .l)[L.arrived .l]? = some r → ∀ op, OpOk E op → ∀ s ∈ spaces, s.key = key →
      s.id ≠ port → ∃ V', addLast s.vertices .r op r.oid
        (fun loc => updateVerticeUfsFromState loc.content op ℓ) = .ok V') :
    ∃ r V' A os' spaces', (L.H .l)[L.arrived .l]? = some r ∧
      serverProc n ⟨argv, false, true, id, port⟩ = .ok ({ n with sspacelist := some spaces' },
          ⟨encode key (A.op (L.last .l) .l) r.oid (ctxText os'), true, none⟩) ∧
      OpOk E (A.op (L.last .l) .l) ∧
      os'.Perm ((L.hist .l).oids (L.last .l)) ∧
      updateVerticeUfsFromState (L.lastContent .l) (A.op (L.last .l) .l) ℓ =
        .ok ((L.receive .l A).lastContent .l) ∧
      Link E ℓ key (L.receive .l A) (Function.update V .l V') (Function.update chan .l rest) ∧
      (L.cells .l).Extends (Mem (L.hist .l).ctxs) A ∧ Space.EdgesKept (V .l) V' ∧
      (spaces'.map fun s => (s.id, s.key)) = spaces.map (fun s => (s.id, s.key)) ∧
      spaceAt spaces' port key = some ⟨port, key, ℓ, V'⟩ ∧
      (∀ id s, id ≠ port → spaceAt spaces id key = some s →
        ∃ V', addLast s.vertices .r (A.op (L.last .l) .l) r.oid
            (fun loc => updateVerticeUfsFromState loc.content (A.op (L.last .l) .l) ℓ) = .ok V' ∧
          spaceAt spaces' id key = some { s with vertices := V' }) ∧
      ∀ id k, k ≠ key → spaceAt spaces' id k = spaceAt spaces id k := by
  obtain ⟨r, os, V', A, os', hr, rfl, hop, hrec, hlink', hext, hkept, hos',
    ⟨hop', hkind, v, i, hv, hedge⟩, hfrom⟩ := hlink.receive hchan
  obtain ⟨spaces', hmap, hids, hself, hothers, hkeys⟩ := feedSpaces_spec (V := V')
    (e := ⟨A.op (L.last .l) .l, r.oid, i⟩) (ℓ := ℓ) hsv (hfeed r hr _ hop')
  refine ⟨r, V', A, os', spaces', hr, ?_, hop', hos', hfrom, hlink', hext, hkept, hids, hself,
    hothers, hkeys⟩
  have hloc : locateVerlist n port key = .ok (some ⟨port, key, ℓ, V .l⟩) := by
    refine Node.locateVerlist_eq ?_
    rw [Node.sver, hspaces]
    exact hsv
  rw [replaceSpace] at hmap
  simp only [serverProc, parseArgs_encode hop, ok_bind, keyArg_encode, hloc, deref_some,
    arg_zero_encode, serverOp_eq hop, hrec, hv, show v.ledge = _ from hedge, hspaces, hmap,
    serverArgs_encode hop hop' hkind.1]

end UfsRedis
