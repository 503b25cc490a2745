import UfsRedis.Ot.Keeps
import UfsRedis.Protocol.System

/-!
# Updates by an ordinary connection of the server

The server reads the `oid` and the context of an operation from its command, so only the commands
that clients have rewritten can be processed.
-/

namespace UfsRedis

open Lib

theorem Space.edgeAt_setEdge_ne {V : Space} {i q : Nat} {s t : Side} {e : Dedge} (h : t ≠ s) :
    (V.setEdge q s e).edgeAt i t = V.edgeAt i t := by
  rw [edgeAt, edgeAt, setEdge, List.getElem?_modify]
  by_cases hq : q = i
  · simp only [hq, if_true]
    obtain _ | v := V[i]?
    · rfl
    exact Vertice.edge_setEdge_ne v h e
  · simp [hq]

section

variable {V V' : Space} {len u u' p fuel : Nat} {s : Side} {oids oids' oid ctx content ufs : Sds}
  {op cop op1 op2 e1 e2 : UfsOp} {d : Dedge}

theorem otUfs_optype (h : otUfs ufs op1 op2 .union = .ok (e1, e2)) : e2.optype = op2.optype := by
  rw [otUfs] at h
  split at h
  · next h1 h2 =>
    simp only [bind_eq_ok, Except.ok.injEq, Prod.mk.injEq] at h
    obtain ⟨a, -, b, -, -, rfl⟩ := h
    exact h2.symm
  · next h1 h2 =>
    simp only [bind_eq_ok, Except.ok.injEq, Prod.mk.injEq] at h
    obtain ⟨a, -, b, -, -, rfl⟩ := h
    exact h2.symm
  · cases h
    rfl
  next h1 h2 =>
  cases h
  exact h2.symm

theorem edgeAt_addOp (h : u < V.length) :
    (addOp V u s op oid content).edgeAt u s = some ⟨op, oid, V.length⟩ := by
  rw [addOp, Space.edgeAt_setEdge (by simp; omega), if_pos ⟨rfl, rfl⟩]

/-- The operation on the last vertice of the loop has the type of the one that arrived. -/
theorem otLoop_optype (hd : V.edgeAt u s = some d)
    (h : otLoop len s fuel V u p oids = .ok (V', u', oids')) :
    ∃ d', V'.edgeAt u' s = some d' ∧ d'.op.optype = d.op.optype := by
  induction fuel generalizing V u p oids d with
  | zero => cases h
  | succ fuel ih =>
    rw [otLoop, bind_eq_ok] at h
    obtain ⟨vu, hvu, h⟩ := h
    split at h
    · cases h
      exact ⟨d, hd, rfl⟩
    next e he =>
    simp only [bind_eq_ok] at h
    obtain ⟨d0, hd0, ⟨op1, op2⟩, hot, vul, hvul, content, -, hrest⟩ := h
    have hdd : d0 = d := by
      rw [(Space.of_vertice hvu).2.2] at hd
      rw [hd, deref_some, Except.ok.injEq] at hd0
      exact hd0.symm
    have hnew : ((addOp V e.adjv s op2 d0.oid content).setEdge p s.flip
        ⟨op1, e.oid, V.length⟩).edgeAt e.adjv s = some ⟨op2, d0.oid, V.length⟩ := by
      rw [Space.edgeAt_setEdge_ne (Side.flip_ne s).symm, edgeAt_addOp (Space.of_vertice hvul).1]
    obtain ⟨d', hd', htype⟩ := ih hnew hrest
    exact ⟨d', hd', by rw [htype, otUfs_optype hot, hdd]⟩

theorem receive_optype (h : receive V len s op cop oid ctx = .ok (V', u, oids)) :
    ∃ d, V'.edgeAt u s = some d ∧ d.op.optype = op.optype := by
  simp only [receive, bind_eq_ok] at h
  obtain ⟨v, -, u0, -, vu, hvu, content, -, hloop⟩ := h
  exact otLoop_optype (edgeAt_addOp (Space.of_vertice hvu).1) hloop

end

theorem serverArgs_union
    (hop : op.optype = .union) (hlen : argv.length ≠ 6) : serverArgs argv op oids ≠ .ok argv' := by
  intro h
  simp only [serverArgs, hop, bind_eq_ok, if_neg hlen] at h
  obtain ⟨a2, -, h⟩ := h
  cases h

variable {n : Node} {c : Client} {x key : Sds}

theorem serverProc_union
    (hc : c.argv = [unionCmd, x, y, key]) (r : Node × Outcome) : serverProc n c ≠ .ok r := by
  intro h
  have hparse : parseArgs c.argv = .ok (x, none, y, key) := by rw [hc]; rfl
  have hname : arg c.argv 0 = .ok unionCmd := by rw [hc]; rfl
  simp only [serverProc, hparse, hname, ok_bind, bind_eq_ok, if_true] at h
  obtain ⟨_, -, sv, -, s, -, ⟨V, u, oids⟩, hrec, v, hv, e, he, l, -, spaces, -, argv, hargs, -⟩ := h
  obtain ⟨d, hd, htype⟩ := receive_optype hrec
  rw [(Space.of_vertice hv).2.2] at hd
  rw [show v.ledge = some d from hd, deref_some, Except.ok.injEq] at he
  subst he
  exact serverArgs_union htype (by simp [hc]) hargs

theorem serverProc_split (hc : c.argv = [splitCmd, x, key]) :
    serverProc n c = .error .argvBounds := by
  have hparse : parseArgs c.argv = .error .argvBounds := by rw [hc]; rfl
  rw [serverProc, hparse, error_bind]

/-- **A plain `union x y key` or `split x key` never returns at the server.** -/
theorem server_update_fails {n : Node} {c : Client} {x y key : Sds} (hn : n.masterhost = false)
    (hc : c.argv = [unionCmd, x, y, key] ∨ c.argv = [splitCmd, x, key]) :
    ∃ f, call controlAlg n c = .error f := by
  have hproc : ∃ f, serverProc n c = .error f := by
    rcases hc with hc | hc
    · rcases h : serverProc n c with f | r
      · exact ⟨f, rfl⟩
      exact absurd h (serverProc_union hc r)
    · exact ⟨_, serverProc_split hc⟩
  obtain ⟨f, hf⟩ := hproc
  exact ⟨f, by simp [call, controlAlg, hn, hf]⟩

def ordinaryClient (argv : List Sds) : Client := ⟨argv, false, false, 7, 0⟩

/-- The server after `uinit k a,b/c`, with one client. -/
def demoServer : Except Fault Node :=
  initNode [(['k'], ['a', ',', 'b', '/', 'c'])] (freshServer [6380])

theorem server_update_fails_split : ∃ n, demoServer = .ok n ∧ n.masterhost = false ∧
    ∃ f, call controlAlg n (ordinaryClient [splitCmd, ['a'], ['k']]) = .error f := by
  exact exists_ok_imp (P := fun n => n.masterhost = false) (by decide +kernel) fun n _ hm =>
    ⟨hm, server_update_fails (y := []) hm (.inr rfl)⟩

/-- A split of an existing element reads an argument that it does not have, and a union of two
existing elements finds no space for the connection. -/
theorem server_update_faults : ∃ n, demoServer = .ok n ∧
    call controlAlg n (ordinaryClient [splitCmd, ['a'], ['k']]) = .error .argvBounds ∧
    call controlAlg n (ordinaryClient [unionCmd, ['a'], ['c'], ['k']]) = .error .nullDeref := by
  decide +kernel

end UfsRedis
