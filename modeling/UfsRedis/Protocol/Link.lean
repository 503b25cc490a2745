import UfsRedis.Ot.Receive

/-!
# One link

A client and the server each keep a state space of their link: side `l` has the operations of the
client, side `r` those that the server sends to it. Each end has all operations of its own side,
and of the other side those that have arrived. The end that receives the operations of side `s` is
called end `s`: end `r` is the client, end `l` the server.
-/

namespace UfsRedis

open Lib Coord Function List

/-! ## Messages -/

/-- The command of an operation: `union x y oid ctx key` or `split x oid ctx key`. -/
def encode (key : Sds) (op : UfsOp) (oid ctx : Sds) : List Sds :=
  match op.optype with
  | .union => [unionCmd, op.argv1, op.argv2.getD [], oid, ctx, key]
  | .split => [splitCmd, op.argv1, oid, ctx, key]

/-- The message with operation `i` of side `s`. -/
def MsgOk (key : Sds) (H : History) (s : Side) (i : Nat) (msg : List Sds) : Prop :=
  ∃ r os, (H s)[i]? = some r ∧ os.Perm (H.oids (mk' s i r.ctx)) ∧
    msg = encode key r.op r.oid (ctxText os)

/-- The messages with the operations of side `s` from number `k` on. -/
inductive Chan (key : Sds) (H : History) (s : Side) : Nat → List (List Sds) → Prop
  | nil : Chan key H s (H s).length []
  | cons {k : Nat} {msg : List Sds} {rest : List (List Sds)} (h : MsgOk key H s k msg)
    (hrest : Chan key H s (k + 1) rest) : Chan key H s k (msg :: rest)

variable {key : Sds} {s : Side} {r : OpRec}

section

variable {H : History} {k : Nat} {msg : List Sds} {msgs : List (List Sds)}

/-- New operations of either side do not change a message, if the contexts exist. -/
theorem MsgOk.push (hst : Stair H.ctxs) (t : Side) (r : OpRec) (h : MsgOk key H s k msg) :
    MsgOk key (H.push t r) s k msg := by
  obtain ⟨r0, os, hr, hos, rfl⟩ := h
  have hlt : k < (H s).length := (List.getElem?_eq_some_iff.mp hr).1
  have hctx := hst.bound s k (by simpa using hlt)
  rw [ctxAt_eq hr, History.length_ctxs] at hctx
  refine ⟨r0, os, ?_, ?_, rfl⟩
  · rcases t.eq_or_eq_flip s with rfl | rfl
    · rw [History.push_self, getElem?_append_left hlt, hr]
    · rw [History.push_flip, hr]
  rw [History.oids_push fun u => ?_]
  · exact hos
  rcases s.eq_or_eq_flip u with rfl | rfl
  · rw [get_mk'_self]; omega
  · rw [get_mk'_flip]; exact hctx

theorem Chan.push_flip (hst : Stair H.ctxs) (h : Chan key H s k msgs) :
    Chan key (H.push s.flip r) s k msgs := by
  induction h with
  | nil =>
    have : Chan key (H.push s.flip r) s ((H.push s.flip r) s).length [] := .nil
    rwa [History.push_flip'] at this
  | cons hm _ ih => exact .cons (hm.push hst _ _) ih

theorem Chan.push_self (hst : Stair H.ctxs) (h : Chan key H s k msgs)
    (hm : MsgOk key (H.push s r) s (H s).length msg) :
    Chan key (H.push s r) s k (msgs ++ [msg]) := by
  induction h with
  | nil =>
    have : Chan key (H.push s r) s ((H.push s r) s).length [] := .nil
    rw [History.push_self, length_append, length_singleton] at this
    exact .cons hm this
  | cons hm _ ih => exact .cons (hm.push hst _ _) ih

theorem Chan.of_cons (h : Chan key H s k (msg :: msgs)) :
    MsgOk key H s k msg ∧ Chan key H s (k + 1) msgs := by
  cases h with
  | cons hm hrest => exact ⟨hm, hrest⟩

theorem Chan.length_eq (h : Chan key H s k msgs) : k + msgs.length = (H s).length := by
  induction h with
  | nil => rfl
  | cons _ _ ih => rw [length_cons]; omega

end

/-! ## What an end has -/

namespace History

/-- The history with only the first `k` operations of side `s`. -/
def cut (H : History) (s : Side) (k : Nat) : History := fun t =>
  if t = s then (H t).take k else H t

variable {H : History} {s : Side} {r : OpRec} {k : Nat} {c : Coord}

@[simp] theorem cut_self : H.cut s k s = (H s).take k := if_pos rfl

@[simp] theorem cut_flip : H.cut s k s.flip = H s.flip := if_neg (Side.flip_ne s)

theorem length_cut (h : k ≤ (H s).length) : (H.cut s k s).length = k := by
  rw [cut_self, length_take]
  omega

theorem cut_length (h : k = (H s).length) : H.cut s k = H := by
  funext t
  rcases s.eq_or_eq_flip t with rfl | rfl
  · rw [cut_self, h, take_length]
  · rw [cut_flip]

theorem cut_push_self (h : (H s)[k]? = some r) : (H.cut s k).push s r = H.cut s (k + 1) := by
  funext t
  rcases s.eq_or_eq_flip t with rfl | rfl
  · rw [push_self, cut_self, cut_self, take_add_one, h, Option.toList_some]
  · rw [push_flip, cut_flip, cut_flip]

theorem cut_push_flip : (H.cut s k).push s.flip r = (H.push s.flip r).cut s k := by
  funext t
  rcases s.eq_or_eq_flip t with rfl | rfl
  · rw [push_flip', cut_self, cut_self, push_flip']
  · rw [push_self, cut_flip, cut_flip, push_self]

theorem push_cut (h : k ≤ (H s).length) : (H.push s r).cut s k = H.cut s k := by
  funext t
  rcases s.eq_or_eq_flip t with rfl | rfl
  · rw [cut_self, cut_self, push_self, take_append_of_le_length h]
  · rw [cut_flip, cut_flip, push_flip]

theorem oid_cut (hi : i < (H.cut s k t).length) : (H.cut s k).oid t i = H.oid t i := by
  rcases s.eq_or_eq_flip t with rfl | rfl
  · rw [cut_self, length_take] at hi
    rw [oid, oid, cut_self, map_take, getD_eq_getElem?_getD, getD_eq_getElem?_getD,
      getElem?_take_of_lt (by omega)]
  · rw [oid, oid, cut_flip]

theorem oids_cut (hc : c.get s ≤ k) : (H.cut s k).oids c = H.oids c := by
  have h : ∀ t, (H.cut s k t).take (c.get t) = (H t).take (c.get t) := by
    intro t
    rcases s.eq_or_eq_flip t with rfl | rfl
    · rw [cut_self, take_take, Nat.min_eq_left hc]
    · rw [cut_flip]
  have hl := h .l
  have hr := h .r
  simp only [Coord.get] at hl hr
  rw [oids, oids, hl, hr]

theorem OidsOk.cut (h : OidsOk H) (s : Side) (k : Nat) : OidsOk (H.cut s k) := by
  have hlen : ∀ t, (H.cut s k t).length ≤ (H t).length := by
    intro t
    rcases s.eq_or_eq_flip t with rfl | rfl
    · rw [cut_self, length_take]; omega
    · rw [cut_flip]
  refine ⟨fun t r hr => h.comma t r ?_, fun t u i j hi hj hp => ?_⟩
  · rcases s.eq_or_eq_flip t with rfl | rfl
    · rw [cut_self] at hr; exact mem_of_mem_take hr
    · rwa [cut_flip] at hr
  have h1 := hlen t
  have h2 := hlen u
  rw [oid_cut hi, oid_cut hj] at hp
  exact h.starts t u i j (by omega) (by omega) hp

theorem mem_cut (hst : Stair H.ctxs) (hr : (H s)[k]? = some r) :
    Mem (H.cut s k).ctxs (mk' s k r.ctx) := by
  have hlt : k < (H s).length := (List.getElem?_eq_some_iff.mp hr).1
  have hlen : k < (H.ctxs s).length := by simpa using hlt
  have hctx : ctxAt H.ctxs s k = r.ctx := ctxAt_eq hr
  intro t
  rcases s.eq_or_eq_flip t with rfl | rfl
  · rw [get_mk'_self, get_mk'_flip, length_ctxs, length_cut (by omega)]
    refine ⟨Nat.le_refl k, fun i hi => ?_⟩
    have hsame : ctxAt (H.cut t k).ctxs t i = ctxAt H.ctxs t i := by
      simp [ctxAt, ctxs, cut_self, getElem?_take_of_lt hi]
    rw [hsame, ← hctx]
    exact hst.mono t i k (by omega) hlen
  have hb := hst.bound s k hlen
  rw [hctx, length_ctxs] at hb
  rw [get_mk'_flip, Side.flip_flip, get_mk'_self, length_ctxs, cut_flip]
  refine ⟨hb, fun i hi => ?_⟩
  have hsame : ctxAt (H.cut s k).ctxs s.flip i = ctxAt H.ctxs s.flip i := by
    simp only [ctxAt, ctxs, cut_flip]
  rw [hsame]
  exact hst.acyclic s k i hlen (by rw [length_ctxs]; omega) (by omega)

end History

/-! ## The invariant -/

/-- The state of a link: the history, and for each end how many operations have arrived there and
the cells of its grid. -/
structure LinkState where
  H : History
  arrived : Side → Nat
  cells : Side → Cells

def LinkState.hist (L : LinkState) (s : Side) : History := L.H.cut s (L.arrived s)

def LinkState.last (L : LinkState) (s : Side) : Coord := Lib.last (L.hist s).ctxs

def LinkState.lastContent (L : LinkState) (s : Side) : Sds := (L.cells s).content (L.last s)

/-- **The invariant of a link** with the state spaces `V` and the messages `chan` on the way to each
end. -/
structure Link (E : List Sds) (ℓ : Nat) (key : Sds) (L : LinkState) (V : Side → Space)
    (chan : Side → List (List Sds)) : Prop where
  stair : Stair L.H.ctxs
  oidsOk : L.H.OidsOk
  opOk : ∀ s, ∀ r ∈ L.H s, OpOk E r.op
  le : ∀ s, L.arrived s ≤ (L.H s).length
  grid : ∀ s, Grid E ℓ (V s) (L.hist s) (L.cells s)
  chan : ∀ s, Chan key L.H s (L.arrived s) (chan s)

/-- An operation `r` is made at end `s`, with the cells `A` after it. -/
def LinkState.send (L : LinkState) (s : Side) (r : OpRec) (A : Cells) : LinkState where
  H := L.H.push s.flip r
  arrived := L.arrived
  cells := Function.update L.cells s A

/-- The next operation arrives at end `s`. -/
def LinkState.receive (L : LinkState) (s : Side) (A : Cells) : LinkState where
  H := L.H
  arrived := Function.update L.arrived s (L.arrived s + 1)
  cells := Function.update L.cells s A

namespace LinkState

variable (L : LinkState) (s : Side) (r : OpRec) (A : Cells)

@[simp] theorem send_H : (L.send s r A).H = L.H.push s.flip r := rfl

@[simp] theorem send_arrived : (L.send s r A).arrived = L.arrived := rfl

@[simp] theorem send_cells : (L.send s r A).cells = update L.cells s A := rfl

@[simp] theorem receive_H : (L.receive s A).H = L.H := rfl

@[simp] theorem receive_arrived :
    (L.receive s A).arrived = update L.arrived s (L.arrived s + 1) := rfl

@[simp] theorem receive_cells : (L.receive s A).cells = update L.cells s A := rfl

end LinkState

variable {E os : List Sds} {ℓ : Nat} {L : LinkState} {V : Side → Space}
  {chan : Side → List (List Sds)} {S : Sds}

theorem LinkState.oids_last (L : LinkState) (s : Side) (h : L.arrived s ≤ (L.H s).length) :
    (L.hist s).oids (L.last s) = L.H.oids (mk' s (L.arrived s) (L.H s.flip).length) := by
  rw [LinkState.last, LinkState.hist, last_eq _ s, History.length_cut h, History.cut_flip,
    History.oids_cut (by rw [get_mk'_self])]

/-- **An end makes an operation.** Its context is what the end has. -/
theorem Link.send (h : Link E ℓ key L V chan) (content : Vertice → Except Fault Sds)
    (hop : OpOk E r.op) (hctx : r.ctx = L.arrived s) (hoids : (L.H.push s.flip r).OidsOk)
    (hos : os.Perm ((L.hist s).oids (L.last s)))
    (hcontent : ∀ v, v.content = L.lastContent s → content v = .ok S)
    (hlen : S.length = ℓ) (hS : Shows E S (r.op.act (denote (L.lastContent s)))) :
    ∃ V' A, addLast (V s) s.flip r.op r.oid content = .ok V' ∧
      Link E ℓ key (L.send s r A) (update V s V') (update chan s.flip
          (chan s.flip ++ [encode key r.op r.oid (ctxText os)])) ∧
      (L.cells s).Extends (Mem (L.hist s).ctxs) A ∧ Space.EdgesKept (V s) V' ∧
      (L.send s r A).lastContent s = S := by
  have hle := h.le s
  have hhist : ∀ A, (L.send s r A).hist s = (L.hist s).push s.flip r := fun A =>
    History.cut_push_flip.symm
  have hctx' : r.ctx = (L.hist s s.flip.flip).length := by
    rw [Side.flip_flip, LinkState.hist, History.length_cut hle, hctx]
  obtain ⟨V', A, hadd, hgrid, hext, hlast⟩ := (h.grid s).addLast hop hctx' hcontent hlen hS
  have hmem : Mem (L.hist s).ctxs (mk' s.flip (L.hist s s.flip).length r.ctx) := by
    have := (h.grid s).mem_last
    rwa [last_eq _ s.flip, ← hctx'] at this
  refine ⟨V', A, hadd, ⟨?_, hoids, fun t r' hr' => ?_, fun t => ?_, fun t => ?_, fun t => ?_⟩, hext,
    (h.grid s).edgesKept hgrid hmem hext, ?_⟩
  · rw [LinkState.send_H, History.ctxs_push]
    refine h.stair.push ?_ fun i hi => ?_
    · rw [Side.flip_flip, History.length_ctxs, hctx]; exact hle
    -- the contexts of this end are among the operations that have arrived
    have hlt : i < (L.H s.flip).length := by simpa using hi
    have hb := (h.grid s).stair.bound s.flip i
      (by rw [History.length_ctxs, LinkState.hist, History.cut_flip]; exact hlt)
    rw [Side.flip_flip, History.length_ctxs, LinkState.hist, History.length_cut hle] at hb
    have hr' := getElem?_eq_getElem hlt
    rw [hctx, ctxAt_eq hr']
    rwa [ctxAt_eq (by rw [History.cut_flip]; exact hr')] at hb
  · rw [LinkState.send_H] at hr'
    rcases s.eq_or_eq_flip t with rfl | rfl
    · exact h.opOk t r' (by rwa [History.push_flip'] at hr')
    rw [History.push_self, mem_append, mem_singleton] at hr'
    rcases hr' with hr' | rfl
    · exact h.opOk _ r' hr'
    · exact hop
  · have := h.le t
    rw [LinkState.send_H, LinkState.send_arrived]
    rcases s.eq_or_eq_flip t with rfl | rfl
    · rwa [History.push_flip']
    rw [History.push_self, length_append]
    omega
  · rw [LinkState.send_cells]
    rcases s.eq_or_eq_flip t with rfl | rfl
    · rw [hhist, update_self, update_self]
      exact hgrid
    rw [update_of_ne (Side.flip_ne s), update_of_ne (Side.flip_ne s),
      LinkState.hist, LinkState.send_H, LinkState.send_arrived, History.push_cut (h.le _)]
    exact h.grid s.flip
  · rw [LinkState.send_H, LinkState.send_arrived]
    rcases s.eq_or_eq_flip t with rfl | rfl
    · rw [update_of_ne (Side.ne_flip t)]
      exact (h.chan t).push_flip h.stair
    rw [update_self]
    refine (h.chan s.flip).push_self h.stair ⟨r, os, by simp, ?_, rfl⟩
    rw [L.oids_last s hle] at hos
    rw [History.oids_push fun t => ?_]
    · have hmk : mk' s.flip (L.H s.flip).length r.ctx =
          mk' s (L.arrived s) (L.H s.flip).length := by
        rw [hctx]
        cases s <;> rfl
      rw [hmk]
      exact hos
    rcases s.flip.eq_or_eq_flip t with rfl | rfl
    · rw [get_mk'_self]
    · rw [get_mk'_flip, Side.flip_flip, hctx]; exact hle
  rw [LinkState.lastContent, LinkState.last, hhist, LinkState.send_cells, update_self]
  exact hlast

variable {rest : List (List Sds)}

theorem Link.next (h : Link E ℓ key L V chan)
    (hchan : chan s = msg :: rest) : ∃ r os, (L.H s)[L.arrived s]? = some r ∧
      msg = encode key r.op r.oid (ctxText os) ∧ Mem (L.hist s).ctxs (mk' s (L.arrived s) r.ctx) ∧
      os.Perm ((L.hist s).oids (mk' s (L.arrived s) r.ctx)) ∧
      Chan key L.H s (L.arrived s + 1) rest := by
  have hc := h.chan s
  rw [hchan] at hc
  obtain ⟨⟨r, os, hr, hos, rfl⟩, hrest⟩ := hc.of_cons
  refine ⟨r, os, hr, rfl, History.mem_cut h.stair hr, ?_, hrest⟩
  rwa [LinkState.hist, History.oids_cut (by rw [get_mk'_self])]

theorem Link.receive (h : Link E ℓ key L V chan) (hchan : chan s = msg :: rest) : ∃ r os V' A os',
      (L.H s)[L.arrived s]? = some r ∧ msg = encode key r.op r.oid (ctxText os) ∧ OpOk E r.op ∧
      UfsRedis.receive (V s) ℓ s r.op r.op r.oid (ctxText os) =
        .ok (V', (L.cells s).ix (L.last s), ctxText os') ∧
      Link E ℓ key (L.receive s A) (update V s V') (update chan s rest) ∧
      (L.cells s).Extends (Mem (L.hist s).ctxs) A ∧ Space.EdgesKept (V s) V' ∧
      os'.Perm ((L.hist s).oids (L.last s)) ∧
      (OpOk E (A.op (L.last s) s) ∧ SameKind r.op (A.op (L.last s) s) ∧
        ∃ v i, V'.vertice ((L.cells s).ix (L.last s)) = .ok v ∧
          v.edge s = some ⟨A.op (L.last s) s, r.oid, i⟩) ∧
      updateVerticeUfsFromState (L.lastContent s) (A.op (L.last s) s) ℓ =
        .ok ((L.receive s A).lastContent s) := by
  obtain ⟨r, os, hr, rfl, hmem, hos, hrest⟩ := h.next hchan
  have hle := h.le s
  have hlt : L.arrived s < (L.H s).length := (List.getElem?_eq_some_iff.mp hr).1
  have hop : OpOk E r.op := h.opOk s r (mem_of_getElem? hr)
  have hlen : (L.hist s s).length = L.arrived s := History.length_cut hle
  obtain ⟨V', A, os', hrec, hgrid, hext, hos', hfrom⟩ :=
    (h.grid s).receive (s := s) (r := r) (h.oidsOk.cut _ _) hop
      (by rw [hlen]; exact hmem) (show os.Perm _ by rw [hlen]; exact hos)
  have hhist : (L.receive s A).hist s = (L.hist s).push s r := by
    rw [LinkState.hist, LinkState.receive_arrived, update_self]
    exact (History.cut_push_self hr).symm
  refine ⟨r, os, V', A, os', hr, rfl, hop, hrec, ⟨h.stair, h.oidsOk, h.opOk, fun t => ?_,
    fun t => ?_, fun t => ?_⟩, hext,
    (h.grid s).edgesKept hgrid (by rw [hlen]; exact hmem) hext, hos', ?_, ?_⟩
  · rw [LinkState.receive_H, LinkState.receive_arrived]
    rcases s.eq_or_eq_flip t with rfl | rfl
    · rw [update_self]
      exact hlt
    rw [update_of_ne (Side.flip_ne s)]
    exact h.le _
  · rw [LinkState.receive_cells]
    rcases s.eq_or_eq_flip t with rfl | rfl
    · rw [hhist, update_self, update_self]
      exact hgrid
    rw [LinkState.hist, LinkState.receive_arrived, update_of_ne (Side.flip_ne s),
      update_of_ne (Side.flip_ne s), update_of_ne (Side.flip_ne s)]
    exact h.grid s.flip
  · rw [LinkState.receive_H, LinkState.receive_arrived]
    rcases s.eq_or_eq_flip t with rfl | rfl
    · rw [update_self, update_self]
      exact hrest
    rw [update_of_ne (Side.flip_ne s), update_of_ne (Side.flip_ne s)]
    exact h.chan s.flip
  · have := hgrid.last_edge (h.grid s) (by rw [hlen]; exact hmem)
    rwa [hext.ix _ (h.grid s).mem_last] at this
  rw [LinkState.lastContent, LinkState.lastContent, LinkState.last, hfrom, LinkState.last, hhist,
    LinkState.receive_cells, update_self]

end UfsRedis
