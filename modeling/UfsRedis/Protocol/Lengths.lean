import UfsRedis.Protocol.Forwarding
import UfsRedis.Protocol.Queries
import UfsRedis.Protocol.ServerUpdate

/-!
# The length of a content

`len_ufs` is the length of the content of the first vertice, and `updateVerticeUfsFromState` reads
every later content with it.
-/

namespace UfsRedis

open List Lib Option

/-! ## Lengths -/

/-- The names of `E`, and a separator between any two neighbours. -/
def joinedLen (E : List Sds) : Nat := (E.map List.length).sum + (E.length - 1)

/-- The length of a content with the elements `E`. The loop of `updateVerticeUfs` cuts the separator
after the last class, but a single name has none, and loses a character if it has more than one. -/
def contentLen (E : List Sds) : Nat :=
  if E.length = 1 ∧ joinedLen E ≠ 1 then joinedLen E - 1 else joinedLen E

variable {g : CudGraph} {p : Setoid Sds} {inits : List (Sds × Sds)} {key S : Sds}

section

variable {E : List Sds}

theorem contentLen_eq_iff (hE : ∀ x ∈ E, NameOk x) :
    contentLen E = joinedLen E ↔ ∀ x, E = [x] → x.length = 1 := by
  have hone : ∀ x : Sds, joinedLen [x] = x.length := fun x => by simp [joinedLen]
  rw [contentLen]
  by_cases h1 : E.length = 1
  · obtain ⟨x, rfl⟩ := length_eq_one_iff.mp h1
    have hx := length_pos_of_ne_nil (hE x (by simp)).1
    have hcond : (∀ y, [x] = [y] → y.length = 1) ↔ x.length = 1 := by simp
    rw [hcond, hone]
    by_cases hx1 : x.length = 1
    · simp [hx1]
    rw [if_pos ⟨h1, hx1⟩]
    omega
  rw [if_neg fun h => h1 h.1]
  refine iff_of_true rfl fun x hx => ?_
  rw [hx] at h1
  exact absurd rfl h1

theorem length_sdsrange_name (hx : x ≠ []) :
    (sdsrange x 0 ((x.length : Int) - 2)).length = if x.length ≠ 1 then x.length - 1 else x.length := by
  have hpos := length_pos_of_ne_nil hx
  by_cases h1 : x.length = 1
  · obtain ⟨c, rfl⟩ := length_eq_one_iff.mp h1
    rfl
  rw [if_pos h1, sdsrange_zero (by omega) (by omega), length_take]
  omega

theorem sum_map_succ (l : List Sds) :
    (l.map (·.length + 1)).sum = (l.map List.length).sum + l.length := by
  induction l with
  | nil => rfl
  | cons x l ih =>
    rw [map_cons, sum_cons, ih, map_cons, sum_cons, length_cons]
    omega

theorem GraphShows.contentLen_eq (h : GraphShows E g p) :
    (UfsRedis.updateVerticeUfs g).length = contentLen E := by
  rw [contentLen]
  by_cases h1 : E.length = 1
  · obtain ⟨x, rfl⟩ := length_eq_one_iff.mp h1
    have hone : joinedLen [x] = x.length := by simp [joinedLen]
    rw [h.updateVerticeUfs_single, length_sdsrange_name (h.nameOk x (by simp)).1, hone]
    simp
  rw [if_neg fun h => h1 h.1, h.updateVerticeUfs_classes h1, joinedLen]
  by_cases hE : E = []
  · have hcs : h.classes.render = [] := by
      have hleaders : leaders g = [] := by
        rw [leaders, h.length_dlist, hE]
        rfl
      rw [h.render_classes, hleaders]
      rfl
    rw [hcs, hE]
    rfl
  have hpos := length_pos_of_ne_nil hE
  have hne : h.classes.toList ≠ [] := by
    intro hnil
    have hperm := h.elements_classes
    rw [Classes.elements, hnil, flatten_nil] at hperm
    exact hE hperm.nil_eq.symm
  have hlen := h.classes.length_render hne
  rw [(h.elements_classes.map _).sum_nat, sum_map_succ] at hlen
  omega

end

/-! ## Sized nodes -/

/-- The contents of a set that was initialised with `S`, with one of the partitions `Q`. -/
def SizedContent (Q : Sds → Setoid Sds → Prop) (S T : Sds) : Prop :=
  T.length = contentLen (elementsOf S) ∧ ∃ p, Q S p ∧ Shows (elementsOf S) T p

/-- A single-element operation that leads from each of the partitions `Q` to one of them. -/
def OpKeeps (Q : Sds → Setoid Sds → Prop) (S : Sds) (op : UfsOp) : Prop :=
  OpOk (elementsOf S) op ∧ ∀ p, Q S p → Q S (op.act p)

/-- Transformations of operations that keep to `Q` keep to it. -/
def Stable (Q : Sds → Setoid Sds → Prop) : Prop :=
  ∀ {S p op1 op2 op1' op2'}, (∀ x ∈ elementsOf S, NameOk x) → Q S p → OpKeeps Q S op1 →
    OpKeeps Q S op2 → Transform (elementsOf S) p op1 op2 op1' op2' →
    (∀ p, Q S p → Q S (op1'.act p)) ∧ ∀ p, Q S p → Q S (op2'.act p)

variable {Q : Sds → Setoid Sds → Prop}

theorem closed_sized (hQ : Stable Q) (S : Sds) :
    Closed (SizedContent Q S) (OpKeeps Q S) (contentLen (elementsOf S)) where
  fromState := by
    rintro T op T' ⟨hlen, p, hp, hT⟩ hop h
    obtain ⟨U, hU, hUlen, -, hUshows⟩ := hT.fromState hop.1
    rw [hlen, h, Except.ok.injEq] at hU
    subst hU
    exact ⟨hUlen.trans hlen, _, hop.2 p hp, hUshows⟩
  ot := by
    rintro T op1 op2 e1 e2 ⟨-, p, hp, hT⟩ h1 h2 h
    obtain ⟨f1, f2, hf, hf1, hf2, htr⟩ := hT.otUfs h1.1 h2.1
    rw [h, Except.ok.injEq, Prod.mk.injEq] at hf
    obtain ⟨rfl, rfl⟩ := hf
    obtain ⟨hq1, hq2⟩ := hQ (fun x hx => hT.name_ok hx) hp h1 h2 htr
    exact ⟨⟨hf1, hq1⟩, hf2, hq2⟩

/-- A state space of the key `key` with the recorded length `len`. -/
def SizedSpace (Q : Sds → Setoid Sds → Prop) (inits : List (Sds × Sds)) (key : Sds) (len : Nat)
    (V : Space) : Prop :=
  ∃ S, (key, S) ∈ inits ∧ len = contentLen (elementsOf S) ∧ SpaceInv (SizedContent Q S) (OpKeeps Q S) V

/-- The graphs have the elements of their keys and partitions in `Q`, and the state spaces their
lengths. -/
structure Sized (Q : Sds → Setoid Sds → Prop) (inits : List (Sds × Sds)) (n : Node) : Prop where
  graph : ∀ {key S}, (key, S) ∈ inits → ∃ g p, n.graph key = some g ∧ g.key = key ∧
    GraphShows (elementsOf S) g p ∧ Q S p
  client : ∀ v ∈ n.cspacelist.getD [], SizedSpace Q inits v.key v.lenUfs v.vertices
  server : ∀ v ∈ n.sspacelist.getD [], SizedSpace Q inits v.key v.lenUfs v.vertices

/-- A command on the way: an operation on the elements of its key. -/
def IsMessage (Q : Sds → Setoid Sds → Prop) (inits : List (Sds × Sds)) (argv : List Sds) : Prop :=
  ∃ key S op oid ctx, (key, S) ∈ inits ∧ OpKeeps Q S op ∧ argv = encode key op oid ctx

/-- A single-element command of a user, which keeps to `Q` if it is accepted. -/
def UserKeeps (Q : Sds → Setoid Sds → Prop) (inits : List (Sds × Sds)) (argv : List Sds) : Prop :=
  ∃ key op, LocalCmd key op argv ∧ ∀ S, (key, S) ∈ inits → OpOk (elementsOf S) op → OpKeeps Q S op

section

variable {n n' : Node} {argv : List Sds} {o : Outcome} {V : Space} {cv : CVerlist}

theorem arg_unique (hnodup : (inits.map Prod.fst).Nodup) (hS : (key, S) ∈ inits)
    (hT : (key, T) ∈ inits) : S = T :=
  congrArg Prod.snd (inj_on_of_nodup_map hnodup hS hT rfl)

theorem mem_of_cver (h : n.cver key = some cv) : cv ∈ n.cspacelist.getD [] ∧ cv.key = key := by
  rw [Node.cver, bind_eq_getD_find?] at h
  exact ⟨mem_of_find?_eq_some h, by simpa using find?_some h⟩

/-- What a command of a user does to the graph of its key. -/
theorem LocalStep.effect {E oids oid op' n₁ g₁}
    (hstep : LocalStep n argv key cv n' o oids oid op' n₁ g₁ V) (hcmd : LocalCmd key op argv)
    (hop : OpOk E op) (hg : n.graph key = some g) (hgkey : g.key = key) (hshows : GraphShows E g p) :
    ∃ g', GraphShows E g' (op.act p) ∧ g'.key = key ∧ op = op' ∧ g' = g₁ ∧
      setUfs { n with opNum := n.opNum + 1 } key g' = n₁ ∧ o.argv = encode key op oid oids := by
  obtain ⟨g', hexec, hshows', hgkey'⟩ := hshows.execOp hop
  have hsent := hstep.sent
  rw [hcmd.localArgs, Except.ok.injEq] at hsent
  have hrec := hstep.recorded
  rw [hcmd.localOp, Except.ok.injEq] at hrec
  have hn1 := hstep.exec
  rw [← hsent, hcmd.localExec (n := { n with opNum := n.opNum + 1 }) hg hexec, Except.ok.injEq,
    Prod.mk.injEq] at hn1
  have hg1 := hstep.graph
  rw [← hn1.1, Node.graph_setUfs_self (n := { n with opNum := n.opNum + 1 }) hg
    (hgkey'.trans hgkey), some.injEq] at hg1
  exact ⟨g', hshows', hgkey'.trans hgkey, hrec, hg1, hn1.1, hsent.symm⟩

section

variable (h : Sized Q inits n)
include h

theorem Sized.setUfs (hnodup : (inits.map Prod.fst).Nodup)
    (hS : (key, S) ∈ inits) (hkey : g.key = key) (hg : GraphShows (elementsOf S) g p) (hq : Q S p) :
    Sized Q inits (setUfs n key g) := by
  refine ⟨fun {k T} hT => ?_, h.client, h.server⟩
  obtain ⟨g0, p0, hg0, hk0, hs0, hq0⟩ := h.graph hT
  by_cases hk : k = key
  · subst hk
    obtain rfl := arg_unique hnodup hS hT
    exact ⟨g, p, Node.graph_setUfs_self hg0 hkey, hkey, hg, hq⟩
  · exact ⟨g0, p0, (Node.graph_setUfs_ne hkey hk).trans hg0, hk0, hs0, hq0⟩

theorem Sized.setCVertices (hS : (key, S) ∈ inits)
    (hV : SpaceInv (SizedContent Q S) (OpKeeps Q S) V)
    (hnodup : (inits.map Prod.fst).Nodup) : Sized Q inits (setCVertices n key V) := by
  refine ⟨h.graph, fun v hv => ?_, h.server⟩
  rcases hl : n.cspacelist with _ | l
  · rw [UfsRedis.setCVertices, hl] at hv
    exact absurd hv not_mem_nil
  have hold := h.client
  rw [hl, getD_some] at hold
  rw [UfsRedis.setCVertices, hl, map_some, getD_some] at hv
  rcases mem_updateFirst hv with hv | ⟨w, hw, hk, rfl⟩
  · exact hold v hv
  obtain ⟨T, hT, hlen, -⟩ := hold w hw
  have hkey : w.key = key := of_decide_eq_true hk
  obtain rfl := arg_unique hnodup hS (hkey ▸ hT)
  exact ⟨S, hT, hlen, hV⟩

theorem Sized.localProc (hnodup : (inits.map Prod.fst).Nodup)
    (hcmd : LocalCmd key op argv)
    (hkeeps : ∀ S, (key, S) ∈ inits → OpOk (elementsOf S) op → OpKeeps Q S op)
    (hp : localProc n argv = .ok (n', o)) :
    Sized Q inits n' ∧ (o.flagUfs = true → IsMessage Q inits o.argv) := by
  obtain ⟨k, cv, hk, hcv, hcase⟩ := localProc_cases hp
  rw [hcmd.keyArg, Except.ok.injEq] at hk
  subst hk
  obtain ⟨hmem, hkey⟩ := mem_of_cver hcv
  obtain ⟨S, hS, hlen, hspace⟩ := h.client cv hmem
  rw [hkey] at hS
  obtain ⟨g, q, hg, hgkey, hshows, hq⟩ := h.graph hS
  rcases hcase with ⟨e, -, rfl, rfl⟩ | ⟨hcheck, oids, oid, op', n1, g1, V, hstep⟩
  · exact ⟨h, fun hf => absurd hf Bool.false_ne_true⟩
  -- the check has accepted the command, so it is an operation on the elements
  have hop : OpOk (elementsOf S) op := by
    rcases hcmd.checkArgv hg hshows with ⟨e, he, -⟩ | ⟨-, hop⟩
    · rw [hcheck] at he
      cases he
    · exact hop
  obtain ⟨g', hshows', hgkey', rfl, rfl, rfl, hsent⟩ := hstep.effect hcmd hop hg hgkey hshows
  have hk := hkeeps S hS hop
  have hsized : Sized Q inits (UfsRedis.setUfs { n with opNum := n.opNum + 1 } key g') :=
    Sized.setUfs (n := { n with opNum := n.opNum + 1 }) ⟨h.graph, h.client, h.server⟩ hnodup hS
      hgkey' hshows' (hk.2 q hq)
  have hV := (hspace.addLast hk (fun {v T} _ hT => by
    rw [Except.ok.injEq] at hT
    subst hT
    exact ⟨hshows'.contentLen_eq, _, hk.2 q hq, hshows'.updateVerticeUfs⟩) hstep.vertices).1
  rw [hstep.node]
  exact ⟨hsized.setCVertices hS hV hnodup, fun _ =>
    ⟨key, S, op, oid, oids, hS, hk, hsent⟩⟩

theorem Sized.remoteProc (hQ : Stable Q) (hnodup : (inits.map Prod.fst).Nodup)
    (hmsg : IsMessage Q inits argv) (hp : remoteProc n argv = .ok (n', o)) : Sized Q inits n' := by
  obtain ⟨k, S, op, oid, ctx, hS, hk, rfl⟩ := hmsg
  have hop := hk.1
  obtain ⟨key, cv, a1, a2, oid', ctx', name, cop, V, u, oids, v, e, g0, g', hkey, hcv, hparse, hname,
    hcop, hrec, hv, he, hg0, hexec, rfl, -⟩ := remoteProc_cases hp
  rw [keyArg_encode, Except.ok.injEq] at hkey
  subst hkey
  rw [parseArgs_encode hop, Except.ok.injEq] at hparse
  cases hparse
  rw [arg_zero_encode, Except.ok.injEq] at hname
  subst hname
  rw [localOp_encode hop, Except.ok.injEq] at hcop
  subst hcop
  rw [remoteOp_eq hop] at hrec
  obtain ⟨hmem, hkey⟩ := mem_of_cver hcv
  obtain ⟨T, hT, hlen, hspace⟩ := h.client cv hmem
  rw [hkey] at hT
  obtain rfl := arg_unique hnodup hS hT
  rw [hlen] at hrec
  have hV := (hspace.receive (closed_sized hQ S) hk hk hrec).1
  have hedge : V.edgeAt u .r = some e := (Space.of_vertice hv).2.2 .r ▸ he
  obtain ⟨g, q, hg, hgkey, hshows, hq⟩ := h.graph hS
  rw [hg0, some.injEq] at hg
  subst hg
  have hk' := hV.op hedge
  obtain ⟨g'', hexec', hshows', hgkey'⟩ := hshows.execOp hk'.1
  rw [hexec, Except.ok.injEq] at hexec'
  subst hexec'
  exact (h.setUfs hnodup hS (hgkey'.trans hgkey) hshows' (hk'.2 q hq)).setCVertices hS hV hnodup

end

theorem SizedSpace.feed (hQ : Stable Q) (hnodup : (inits.map Prod.fst).Nodup)
    (hS : (key, S) ∈ inits) (hlen : len = contentLen (elementsOf S)) (hop : OpKeeps Q S e.op)
    (h : SizedSpace Q inits s.key s.lenUfs s.vertices) (hf : feedSpace key port len e s = .ok s') :
    SizedSpace Q inits s'.key s'.lenUfs s'.vertices := by
  by_cases hs : s.key ≠ key ∨ s.id = port
  · rw [feedSpace_skip hs, Except.ok.injEq] at hf
    subst hf
    exact h
  have hk : s.key = key := by_contra fun hk => hs (.inl hk)
  rw [feedSpace, if_neg hs, bind_eq_ok] at hf
  obtain ⟨V, hadd, heq⟩ := hf
  cases heq
  obtain ⟨T, hT, hTlen, hspace⟩ := h
  obtain rfl := arg_unique hnodup hS (hk ▸ hT)
  rw [hlen] at hadd
  exact ⟨S, hT, hTlen, (hspace.addLast hop (fun hC hfrom =>
    (closed_sized hQ S).fromState hC hop hfrom) hadd).1⟩

theorem Sized.serverProc (h : Sized Q inits n) (hQ : Stable Q) (hnodup : (inits.map Prod.fst).Nodup)
    (hmsg : IsMessage Q inits c.argv) (hp : serverProc n c = .ok (n', o)) :
    Sized Q inits n' ∧ IsMessage Q inits o.argv := by
  obtain ⟨k, S, op, oid, ctx, hS, hk, hargv⟩ := hmsg
  have hop := hk.1
  obtain ⟨a1, a2, oid', ctx', key, sv, name, V, u, oids, v, e, l, spaces, hparse, hkey, hsv, hname,
    hrec, hv, he, hl, hspaces, hargs, rfl, -, -⟩ := serverProc_cases hp
  rw [hargv] at hparse hkey hname hargs
  rw [keyArg_encode, Except.ok.injEq] at hkey
  subst hkey
  rw [parseArgs_encode hop, Except.ok.injEq] at hparse
  cases hparse
  rw [arg_zero_encode, Except.ok.injEq] at hname
  subst hname
  rw [serverOp_eq hop] at hrec
  rw [Node.sver, hl, bind_some] at hsv
  obtain ⟨hmem, -, hkey⟩ := spaceAt_some hsv
  have hserver := h.server
  rw [hl, getD_some] at hserver
  obtain ⟨T, hT, hlen, hspace⟩ := hserver sv hmem
  rw [hkey] at hT
  obtain rfl := arg_unique hnodup hS hT
  rw [hlen] at hrec
  have hV := (hspace.receive (closed_sized hQ S) hk hk hrec).1
  have hedge : V.edgeAt u .l = some e := (Space.of_vertice hv).2.2 .l ▸ he
  have hop' : OpKeeps Q S e.op := hV.op hedge
  obtain ⟨d, hd, htype⟩ := receive_optype hrec
  rw [hedge, some.injEq] at hd
  subst hd
  rw [serverArgs_encode hop hop'.1 htype, Except.ok.injEq] at hargs
  refine ⟨⟨h.graph, h.client, fun w hw => ?_⟩, k, S, e.op, oid, oids, hS, hop', hargs.symm⟩
  -- a space that is fed comes from the old spaces, or from the one that the operation arrived at
  obtain ⟨s, hs, hfeed⟩ := exists_mem_forall₂ (forall₂_of_mapM hspaces).flip hw
  refine SizedSpace.feed hQ hnodup hS hlen hop' ?_ hfeed
  rcases mem_updateFirst hs with hs | ⟨w0, hw0, hwk, rfl⟩
  · exact hserver s hs
  obtain ⟨T, hT, hTlen, -⟩ := hserver w0 hw0
  have hwkey : w0.key = k := (of_decide_eq_true hwk).2
  obtain rfl := arg_unique hnodup hS (hwkey ▸ hT)
  exact ⟨S, hT, hTlen, hV⟩

end

/-! ## Runs -/

theorem UserHas.imp {C D : List Sds → Prop} {e : Event} (h : UserHas C e)
    (hCD : ∀ argv, C argv → D argv) : UserHas D e := by
  cases e with
  | user i argv => exact hCD argv h
  | toServer i => trivial
  | toClient i => trivial

def IsLocalCmd (argv : List Sds) : Prop := ∃ key op, LocalCmd key op argv

section

variable {ports : List Nat} {sys : System} {events : List Event} {gs : List CudGraph} {n : Node}

theorem Sized.keptBy (hQ : Stable Q) (hnodup : (inits.map Prod.fst).Nodup) :
    KeptBy controlAlg (fun n => n.masterhost = true ∧ Sized Q inits n)
      (fun n => n.masterhost = false ∧ Sized Q inits n) (IsMessage Q inits) (IsMessage Q inits)
      (UserKeeps Q inits) where
  user := by
    rintro n argv n' o ⟨hm, hn⟩ ⟨key, op, hcmd, hkeeps⟩ hp
    have hconf := controlAlg_config hm hp
    rw [controlAlg, if_pos hm] at hp
    obtain ⟨hn', hmsg⟩ := hn.localProc hnodup hcmd hkeeps hp
    exact ⟨⟨hconf.masterhost.trans hm, hn'⟩, hmsg⟩
  toServer := by
    rintro n i port argv n' o ⟨hm, hn⟩ hargv hp
    rw [controlAlg, if_neg (by simp [hm])] at hp
    obtain ⟨hn', hmsg⟩ := hn.serverProc hQ hnodup hargv hp
    obtain ⟨spaces, rfl⟩ := serverProc_frame hp
    exact ⟨⟨hm, hn'⟩, fun _ => hmsg⟩
  toClient := by
    rintro n argv n' o ⟨hm, hn⟩ hargv hp
    have hconf := controlAlg_config hm hp
    rw [controlAlg, if_pos hm] at hp
    exact ⟨hconf.masterhost.trans hm, hn.remoteProc hQ hnodup hargv hp⟩

theorem mem_spaces_foldl_addUfs (gs : List CudGraph) (n : Node) :
    (∀ v ∈ (gs.foldl Node.addUfs n).cspacelist.getD [],
        v ∈ n.cspacelist.getD [] ∨ ∃ g ∈ gs, v = clientSpace g) ∧
      ∀ v ∈ (gs.foldl Node.addUfs n).sspacelist.getD [],
        v ∈ n.sspacelist.getD [] ∨ ∃ g ∈ gs, v ∈ serverSpaces n.slaves g := by
  induction gs generalizing n with
  | nil => exact ⟨fun v hv => .inl hv, fun v hv => .inl hv⟩
  | cons g gs ih =>
    obtain ⟨hc, hs⟩ := ih (n := n.addUfs g)
    rw [foldl_cons]
    refine ⟨fun v hv => ?_, fun v hv => ?_⟩
    · rcases hc v hv with hv | ⟨g', hg', rfl⟩
      · rw [Node.addUfs] at hv
        split at hv
        · rw [getD_some, mem_append, mem_singleton] at hv
          exact hv.imp_right fun h => ⟨g, by simp, h⟩
        · exact .inl hv
      · exact .inr ⟨g', by simp [hg'], rfl⟩
    rcases hs v hv with hv | ⟨g', hg', hv⟩
    · rw [Node.addUfs] at hv
      split at hv
      · exact .inl hv
      rw [getD_some, mem_append] at hv
      exact hv.imp_right fun h => ⟨g, by simp, h⟩
    · exact .inr ⟨g', by simp [hg'], hv⟩

theorem Sized.start (hgs : List.Forall₂ (fun x g => uinitGraph x.1 x.2 = .ok g ∧ g.key = x.1 ∧
      GraphShows (elementsOf x.2) g (denote x.2)) inits gs)
    (hnodup : (gs.map CudGraph.key).Nodup) (hq : ∀ x ∈ inits, Q x.2 (denote x.2))
    (hu : n.ufslist = none) (hc : n.cspacelist = none) (hs : n.sspacelist = none) :
    Sized Q inits (gs.foldl Node.addUfs n) := by
  have hspace : ∀ g ∈ gs, SizedSpace Q inits g.key (updateVerticeUfs g).length
      [Vertice.create (updateVerticeUfs g)] := by
    intro g hg
    obtain ⟨x, hx, -, hkey, hshows⟩ := exists_mem_forall₂ hgs.flip hg
    exact ⟨x.2, hkey ▸ hx, hshows.contentLen_eq,
      .start ⟨hshows.contentLen_eq, _, hq x hx, hshows.updateVerticeUfs⟩⟩
  obtain ⟨hclient, hserver⟩ := mem_spaces_foldl_addUfs gs n
  refine ⟨fun {key S} hS => ?_, fun v hv => ?_, fun v hv => ?_⟩
  · obtain ⟨g, hg, -, hkey, hshows⟩ := exists_mem_forall₂ hgs hS
    exact ⟨g, _, (congrArg _ hkey.symm).trans (graph_foldl_addUfs hnodup hg hu), hkey, hshows, hq _ hS⟩
  · rcases hclient v hv with hv | ⟨g, hg, rfl⟩
    · rw [hc] at hv
      exact absurd hv not_mem_nil
    · exact hspace g hg
  rcases hserver v hv with hv | ⟨g, hg, hv⟩
  · rw [hs] at hv
    exact absurd hv not_mem_nil
  obtain ⟨s, -, rfl⟩ := mem_map.mp hv
  exact hspace g hg

/-- What holds of the partitions at the start, and is kept by the commands of the users, holds after
any run. -/
theorem Sized.exec (hQ : Stable Q) (hnodup : (inits.map Prod.fst).Nodup)
    (hwf : ∀ x ∈ inits, WellFormed x.2) (hq : ∀ x ∈ inits, Q x.2 (denote x.2))
    (hcmds : ∀ e ∈ events, UserHas (UserKeeps Q inits) e)
    (h : System.exec ports inits events = .ok sys) :
    Everywhere (Sized Q inits) (Sized Q inits) (IsMessage Q inits) (IsMessage Q inits) sys := by
  obtain ⟨gs, hgs⟩ := exists_graphs hwf
  have hkeys : gs.map CudGraph.key = inits.map Prod.fst := map_forall₂ hgs fun _ _ h => h.2.1
  rw [System.exec, System.boot_eq hnodup (hgs.imp fun _ _ h => ⟨h.1, h.2.1⟩), ok_bind,
    System.run_eq_runBy] at h
  have hpeer : ∀ p ∈ (System.start ports gs).peers, ∃ port,
      p = ⟨gs.foldl Node.addUfs (freshClient port), [], []⟩ := by
    intro p hp
    obtain ⟨port, -, rfl⟩ := mem_map.mp hp
    exact ⟨port, rfl⟩
  have hstart : Everywhere (fun n => n.masterhost = true ∧ Sized Q inits n)
      (fun n => n.masterhost = false ∧ Sized Q inits n) (IsMessage Q inits) (IsMessage Q inits)
      (System.start ports gs) := by
    refine ⟨⟨?_, Sized.start hgs (hkeys ▸ hnodup) hq rfl rfl rfl⟩, fun p hp => ?_, fun p hp => ?_,
      fun p hp => ?_⟩
    · rw [System.start, foldl_addUfs_frame]
      rfl
    · obtain ⟨port, rfl⟩ := hpeer p hp
      refine ⟨?_, Sized.start hgs (hkeys ▸ hnodup) hq rfl rfl rfl⟩
      rw [foldl_addUfs_frame]
      rfl
    · obtain ⟨port, rfl⟩ := hpeer p hp
      exact fun argv hargv => absurd hargv not_mem_nil
    obtain ⟨port, rfl⟩ := hpeer p hp
    exact fun argv hargv => absurd hargv not_mem_nil
  have hrun := hstart.run (Sized.keptBy hQ hnodup) hcmds h
  exact ⟨hrun.server.2, fun p hp => (hrun.node p hp).2, hrun.up, hrun.down⟩

def System.nodes (sys : System) : List Node := sys.server :: sys.peers.map Peer.node

/-- Everything that a node has for a key has the length `len`: the recorded lengths and the contents
of its state spaces, and the reply of `umembers`. -/
structure Node.HasLength (n : Node) (key : Sds) (len : Nat) : Prop where
  client : ∀ v ∈ n.cspacelist.getD [], v.key = key →
    v.lenUfs = len ∧ ∀ u ∈ v.vertices, u.content.length = len
  server : ∀ v ∈ n.sspacelist.getD [], v.key = key →
    v.lenUfs = len ∧ ∀ u ∈ v.vertices, u.content.length = len
  reply : ∃ text, umembersCommand n [umembersCmd, key] = .ok text ∧ text.length = len

theorem SizedSpace.hasLength (hnodup : (inits.map Prod.fst).Nodup) (hS : (key, S) ∈ inits)
    (h : SizedSpace Q inits k len V) (hk : k = key) :
    len = contentLen (elementsOf S) ∧ ∀ u ∈ V, u.content.length = contentLen (elementsOf S) := by
  subst hk
  obtain ⟨T, hT, hlen, hspace⟩ := h
  obtain rfl := arg_unique hnodup hS hT
  refine ⟨hlen, fun u hu => ?_⟩
  obtain ⟨i, hi⟩ := getElem?_of_mem hu
  have hcontent : V.contentAt i = some u.content := by rw [Space.contentAt, hi]; rfl
  exact (hspace.content hcontent).1

theorem Sized.hasLength (h : Sized Q inits n) (hnodup : (inits.map Prod.fst).Nodup)
    (hS : (key, S) ∈ inits) : n.HasLength key (contentLen (elementsOf S)) where
  client v hv hk := (h.client v hv).hasLength hnodup hS hk
  server v hv hk := (h.server v hv).hasLength hnodup hS hk
  reply := by
    obtain ⟨g, p, hg, -, hshows, -⟩ := h.graph hS
    exact ⟨_, umembersCommand_eq (Node.getUfs_eq hg),
      hshows.length_umembersText.trans hshows.contentLen_eq⟩

/-- **The lengths of a key.** After any run of single-element commands, everything that any node has
for the key has the length of its names with their separators iff the key was not initialised with a
single name of two or more characters. -/
theorem content_length_iff (hnodup : (inits.map Prod.fst).Nodup)
    (hinits : ∀ x ∈ inits, NulFree x.1 ∧ Members x.2)
    (hcmds : ∀ e ∈ events, UserHas IsLocalCmd e)
    (h : System.exec ports inits events = .ok sys) (hS : (key, S) ∈ inits) :
    (∀ n ∈ sys.nodes, n.HasLength key (joinedLen (elementsOf S))) ↔
      ∀ x, elementsOf S = [x] → x.length = 1 := by
  have hwf : ∀ x ∈ inits, WellFormed x.2 := fun x hx => (hinits x hx).2.wellFormed
  have hstable : Stable fun _ _ => True :=
    fun _ _ _ _ _ => ⟨fun _ _ => trivial, fun _ _ => trivial⟩
  have hrun := Sized.exec hstable hnodup hwf (fun _ _ => trivial) (fun e he =>
    (hcmds e he).imp fun argv ⟨key, op, hcmd⟩ => ⟨key, op, hcmd, fun S _ hop =>
      ⟨hop, fun _ _ => trivial⟩⟩) h
  have hname : ∀ x ∈ elementsOf S, NameOk x := fun _ hx => (hwf _ hS).shows.name_ok hx
  rw [← contentLen_eq_iff hname]
  constructor
  · intro hall
    obtain ⟨text, htext, hlen⟩ := (hall sys.server mem_cons_self).reply
    obtain ⟨text', htext', hlen'⟩ := (hrun.server.hasLength hnodup hS).reply
    rw [htext, Except.ok.injEq] at htext'
    rw [← hlen', ← htext', hlen]
  intro hlen n hn
  rw [← hlen]
  rcases mem_cons.mp hn with rfl | hn
  · exact hrun.server.hasLength hnodup hS
  obtain ⟨p, hp, rfl⟩ := mem_map.mp hn
  exact (hrun.node p hp).hasLength hnodup hS

end

theorem content_length_iff_pair : ∃ sys,
    System.exec [6380, 6381] [(['k'], ['a', ',', 'b'])] demoRun = .ok sys ∧
      ((∀ n ∈ sys.nodes, n.HasLength ['k'] 3) ↔
        ∀ x, elementsOf ['a', ',', 'b'] = [x] → x.length = 1) := by
  obtain ⟨sys, hsys, -⟩ := RunInv.exec demoRun_ok
  have hinit : NulFree ['k'] ∧ Members ['a', ',', 'b'] := ⟨by decide, by decide, by decide⟩
  refine ⟨sys, hsys, content_length_iff (by decide) (by simpa using hinit) (fun e he => ?_) hsys
    (mem_singleton_self _)⟩
  have hu := demoRun_ok.users e he
  cases e with
  | user i argv =>
    obtain ⟨x, -, op, hcmd⟩ := hu
    exact ⟨_, op, hcmd⟩
  | toServer i => trivial
  | toClient i => trivial

/-- A set of one name of two characters: the contents and the replies lack the second. -/
theorem content_cut_short : ∃ sys, System.exec [6380] [(['k'], ['a', 'b'])] [] = .ok sys ∧
    joinedLen (elementsOf ['a', 'b']) = 2 ∧
    (sys.peers.map fun p => (p.node.cspacelist.getD []).map fun v =>
      (v.lenUfs, v.vertices.map (·.content))) = [[(1, [['a']])]] ∧
    umembersCommand sys.server [umembersCmd, ['k']] = .ok ['a'] := by
  decide +kernel

end UfsRedis
