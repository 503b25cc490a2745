import UfsRedis.Protocol.Node

/-!
# What a command that returns has done

Inversion of the three ways of `controlAlg`: each part has returned, and the new state and outcome
are given by what the parts returned.
-/

namespace UfsRedis

open Lib Option

variable {n n' : Node} {c : Client} {argv : List Sds} {o : Outcome} {key : Sds} {executed : Bool}
  {g : CudGraph} {cv : CVerlist}

theorem Node.key_of_graph (h : n.graph key = some g) : g.key = key := by
  rw [Node.graph, bind_eq_some_iff] at h
  obtain ⟨gs, -, hg⟩ := h
  simpa using List.find?_some hg

theorem Node.graph_of_getUfs (h : getUfs n key = .ok l)
    (hg : deref l = .ok g) : n.graph key = some g := by
  rw [getUfs, bind_eq_ok] at h
  obtain ⟨gs, hgs, hl⟩ := h
  rw [Except.ok.injEq] at hl
  rw [deref_eq_ok] at hgs hg
  rw [Node.graph, hgs, bind_some, hl, hg]

theorem Node.cver_of_locateCVerlist
    (h : locateCVerlist n key = .ok l) (hcv : deref l = .ok cv) : n.cver key = some cv := by
  rw [locateCVerlist, bind_eq_ok] at h
  obtain ⟨cvs, hcvs, hl⟩ := h
  rw [Except.ok.injEq] at hl
  rw [deref_eq_ok] at hcvs hcv
  rw [Node.cver, hcvs, bind_some, hl, hcv]

theorem Node.sver_of_locateVerlist {id : Nat} {l sv}
    (h : locateVerlist n id key = .ok l) (hsv : deref l = .ok sv) : n.sver id key = some sv := by
  rw [locateVerlist, bind_eq_ok] at h
  obtain ⟨svs, hsvs, hl⟩ := h
  rw [Except.ok.injEq] at hl
  rw [deref_eq_ok] at hsvs hsv
  rw [Node.sver, hsvs, bind_some]
  exact hl.trans hsv

/-- A union or split is executed on the graph, and another command is not. -/
theorem localExec_cases (h : localExec n argv = .ok (n', executed)) :
    ∃ name key, arg argv 0 = .ok name ∧ keyArg argv = .ok key ∧
      ((∃ op g g', (name = unionCmd ∨ name = splitCmd) ∧ localOp argv = .ok op ∧
          n.graph key = some g ∧ execOp g op = .ok g' ∧ n' = setUfs n key g' ∧ executed = true) ∨
        (name ≠ unionCmd ∧ name ≠ splitCmd ∧ n' = n ∧ executed = false)) := by
  rw [localExec, bind_eq_ok] at h
  obtain ⟨name, hname, h⟩ := h
  rw [bind_eq_ok] at h
  obtain ⟨key, hkey, h⟩ := h
  refine ⟨name, key, hname, hkey, ?_⟩
  split at h
  · next hu =>
    simp only [bind_eq_ok, Except.ok.injEq, Prod.mk.injEq] at h
    obtain ⟨l, hl, g, hg, x, hx, y, hy, g', hg', rfl, rfl⟩ := h
    refine .inl ⟨unionOp x y, g, g', .inl hu, ?_, Node.graph_of_getUfs hl hg, hg', rfl, rfl⟩
    simp [localOp, hname, hu, hx, hy]
  next hu =>
  split at h
  · next hs =>
    simp only [bind_eq_ok, Except.ok.injEq, Prod.mk.injEq] at h
    obtain ⟨l, hl, g, hg, x, hx, g', hg', rfl, rfl⟩ := h
    refine .inl ⟨splitOp x, g, g', .inr hs, ?_, Node.graph_of_getUfs hl hg, hg', rfl, rfl⟩
    have hne : splitCmd ≠ unionCmd := by decide
    simp [localOp, hname, hs, hx, hne]
  next hs =>
  cases h
  exact .inr ⟨hu, hs, rfl, rfl⟩

/-- A command of a user that was accepted: `op` is recorded under `oid`, and `o.argv` is executed
and sent. -/
structure LocalStep (n : Node) (argv : List Sds) (key : Sds) (cv : CVerlist) (n' : Node)
    (o : Outcome) (oids oid : Sds) (op : UfsOp) (n₁ : Node) (g : CudGraph) (V : Space) : Prop where
  ne : cv.vertices ≠ []
  context : calculateOids cv.vertices (cv.vertices.length + 1) 0 initOids = .ok oids
  fresh : createOid n.port (n.opNum + 1) = .ok oid
  recorded : localOp argv = .ok op
  sent : localArgs argv oid oids = .ok o.argv
  exec : localExec { n with opNum := n.opNum + 1 } o.argv = .ok (n₁, o.flagUfs)
  graph : n₁.graph key = some g
  vertices : addLast cv.vertices .l op oid (fun _ => .ok (updateVerticeUfs g)) = .ok V
  node : n' = setCVertices n₁ key V
  reply : o.reply = if o.flagUfs then some .ok else none

/-- A command of a user is rejected, or is an operation that is sent to the server. -/
theorem localProc_cases (h : localProc n argv = .ok (n', o)) :
    ∃ key cv, keyArg argv = .ok key ∧ n.cver key = some cv ∧
      ((∃ e, checkArgv n argv = .ok (some e) ∧ n' = n ∧ o = ⟨argv, false, some (.err e)⟩) ∨
        (checkArgv n argv = .ok none ∧
          ∃ oids oid op n₁ g V, LocalStep n argv key cv n' o oids oid op n₁ g V)) := by
  simp only [localProc, bind_eq_ok] at h
  obtain ⟨key, hkey, l, hl, cv, hcv, chk, hchk, h⟩ := h
  refine ⟨key, cv, hkey, Node.cver_of_locateCVerlist hl hcv, ?_⟩
  cases chk with
  | some e =>
    cases h
    exact .inl ⟨e, hchk, rfl, rfl⟩
  | none =>
    simp only at h
    split at h
    · cases h
    next hne =>
    simp only [bind_eq_ok, Except.ok.injEq, Prod.mk.injEq] at h
    obtain ⟨oids, hoids, oid, hoid, op, hop, argv', hargs, ⟨n₁, executed⟩, hexec, l', hl', ufs,
      hufs, V, hV, rfl, rfl⟩ := h
    exact .inr ⟨hchk, oids, oid, op, n₁, ufs, V, hne, hoids, hoid, hop, hargs, hexec,
      Node.graph_of_getUfs hl' hufs, hV, rfl, rfl⟩

theorem LocalStep.localProc (h : LocalStep n argv key cv n' o oids oid op n₁ g V)
    (hkey : keyArg argv = .ok key)
    (hcv : n.cver key = some cv) (hcheck : checkArgv n argv = .ok none) :
    localProc n argv = .ok (n', o) := by
  have hexec := h.exec
  have ho : o = ⟨o.argv, o.flagUfs, if o.flagUfs then some .ok else none⟩ := by rw [← h.reply]
  simp only [UfsRedis.localProc, hkey, ok_bind, Node.locateCVerlist_eq hcv, deref_some, hcheck,
    if_neg h.ne, h.context, h.fresh, h.recorded, h.sent, hexec, Node.getUfs_eq h.graph, h.vertices]
  rw [← h.node, ← ho]

/-- A message from the server is received and executed. -/
theorem remoteProc_cases (h : remoteProc n argv = .ok (n', o)) :
    ∃ key cv a1 a2 oid ctx name cop V u oids v e g g', keyArg argv = .ok key ∧
      n.cver key = some cv ∧ parseArgs argv = .ok (a1, a2, oid, ctx) ∧ arg argv 0 = .ok name ∧
      localOp argv = .ok cop ∧
      receive cv.vertices cv.lenUfs .r (if name = unionCmd then ⟨.union, a1, a2⟩ else splitOp a1)
        cop oid ctx = .ok (V, u, oids) ∧
      V.vertice u = .ok v ∧ v.redge = some e ∧ n.graph key = some g ∧ execOp g e.op = .ok g' ∧
      n' = setCVertices (setUfs n key g') key V ∧ o = ⟨argv, true, some .ok⟩ := by
  simp only [remoteProc, bind_eq_ok, Except.ok.injEq, Prod.mk.injEq] at h
  obtain ⟨key, hkey, l, hl, cv, hcv, ⟨a1, a2, oid, ctx⟩, hparse, name, hname, cop, hcop,
    ⟨V, u, oids⟩, hrec, v, hv, e, he, l', hl', g, hg, g', hg', rfl, rfl⟩ := h
  exact ⟨key, cv, a1, a2, oid, ctx, name, cop, V, u, oids, v, e, g, g', hkey,
    Node.cver_of_locateCVerlist hl hcv, hparse, hname, hcop, hrec, hv, deref_eq_ok.mp he,
    Node.graph_of_getUfs hl' hg, hg', rfl, rfl⟩

/-- A message at the server is received, and fed to the other clients. -/
theorem serverProc_cases (h : serverProc n c = .ok (n', o)) :
    ∃ a1 a2 oid ctx key sv name V u oids v e l spaces, parseArgs c.argv = .ok (a1, a2, oid, ctx) ∧
      keyArg c.argv = .ok key ∧ n.sver c.listeningPort key = some sv ∧ arg c.argv 0 = .ok name ∧
      receive sv.vertices sv.lenUfs .l ⟨if name = unionCmd then .union else .split, a1, a2⟩
        ⟨if name = unionCmd then .union else .split, a1, a2⟩ oid ctx = .ok (V, u, oids) ∧
      V.vertice u = .ok v ∧ v.ledge = some e ∧ n.sspacelist = some l ∧
      (updateFirst (fun s => s.id = c.listeningPort ∧ s.key = key)
        (fun s => { s with vertices := V }) l).mapM
          (feedSpace key c.listeningPort sv.lenUfs e) = .ok spaces ∧
      serverArgs c.argv e.op oids = .ok o.argv ∧ n' = { n with sspacelist := some spaces } ∧
      o.flagUfs = true ∧ o.reply = none := by
  simp only [serverProc, bind_eq_ok, Except.ok.injEq, Prod.mk.injEq] at h
  obtain ⟨⟨a1, a2, oid, ctx⟩, hparse, key, hkey, l, hl, sv, hsv, name, hname, ⟨V, u, oids⟩, hrec, v,
    hv, e, he, l', hl', spaces, hspaces, argv, hargs, rfl, rfl⟩ := h
  exact ⟨a1, a2, oid, ctx, key, sv, name, V, u, oids, v, e, l', spaces, hparse, hkey,
    Node.sver_of_locateVerlist hl hsv, hname, hrec, hv, deref_eq_ok.mp he, deref_eq_ok.mp hl',
    hspaces, hargs, rfl, rfl, rfl⟩

end UfsRedis
